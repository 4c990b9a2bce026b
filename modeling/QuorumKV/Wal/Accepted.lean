import QuorumKV.Wal.History

/-!
# What an accepted call means for replay

For every call the WAL accepts: the records it appends, the live state it
leaves, and the views those records give at every later Snapshot index.  Nothing
here mentions files; `Durable` connects it to the WAL's own checks and bytes.
-/

namespace QuorumKV.Wal

namespace Trace

def last (t : Trace) : Nat := t.live.snapshotIndex.toNat + t.live.log.length

structure WellFormed (t : Trace) : Prop where
  contiguous : Contiguous t.live.snapshotIndex.toNat t.live.log
  bound : t.last < 2 ^ 64
  snapshot_le : t.live.snapshotIndex.toNat ≤ t.live.commitIndex.toNat
  commit_le : t.live.commitIndex.toNat ≤ t.last
  checkpoint_le : t.checkpointCommit.toNat ≤ t.live.commitIndex.toNat

theorem WellFormed.lastIndex {t : Trace} (h : t.WellFormed) :
    t.live.lastIndex.toNat = t.last :=
  RecoveredState.toNat_lastIndex h.bound

/-- The checks of the call, in terms of the live state. -/
def Accepts (t : Trace) : Operation → Prop
  | .saveHardState _ => True
  | .saveLogEntries entries => Contiguous t.last entries ∧ t.last + entries.length < 2 ^ 64
  | .truncateLog first =>
      t.live.commitIndex.toNat < first.toNat ∧ first.toNat ≤ t.last + 1 ∧ t.last + 1 < 2 ^ 64
  | .saveCommitIndex index =>
      t.live.commitIndex.toNat ≤ index.toNat ∧ index.toNat ≤ t.last
  | .compact index _ =>
      t.live.snapshotIndex.toNat ≤ index.toNat ∧ index.toNat ≤ t.live.commitIndex.toNat ∧
        index ≠ 0
  | .installSnapshot index _ retain =>
      t.live.snapshotIndex.toNat ≤ index.toNat ∧
        (retain = false → t.live.commitIndex.toNat ≤ index.toNat) ∧ index ≠ 0
  | .reopen _ => True

def checkpointOf (t : Trace) (hardState : HardState) (index term commit from' : UInt64) :
    CompactionCheckpoint :=
  { identity := t.live.identity
    hardState := hardState
    commitIndex := commit
    snapshotIndex := index
    snapshotTerm := term
    truncateFrom := from' }

def recordsOf (t : Trace) (hardState : HardState) : Operation → List Record
  | .saveHardState state => [.hardState state]
  | .saveLogEntries entries => entries.map .entry
  | .truncateLog first => [.truncation first]
  | .saveCommitIndex index => if index = t.live.commitIndex then [] else [.commit index]
  | .compact index term =>
      [.checkpoint (t.checkpointOf hardState index term t.live.commitIndex 0)]
  | .installSnapshot index term retain =>
      if retain = false ∧ index < t.live.lastIndex then
        [.checkpoint (t.checkpointOf hardState index term (max t.live.commitIndex index)
          (index + 1)), .truncation (index + 1)]
      else
        [.checkpoint (t.checkpointOf hardState index term (max t.live.commitIndex index) 0)]
  | .reopen _ => []

def above (t : Trace) (s : UInt64) : List LogEntry :=
  t.live.log.filter fun entry => s < entry.index

theorem WellFormed.above_eq {t : Trace} (h : t.WellFormed) (s : UInt64) :
    t.above s = t.live.log.drop (s.toNat - t.live.snapshotIndex.toNat) :=
  h.contiguous.filter_above s

theorem WellFormed.above_length {t : Trace} (h : t.WellFormed) {s : UInt64}
    (hs : t.live.snapshotIndex ≤ s) : s.toNat + (t.above s).length = max s.toNat t.last := by
  rw [UInt64.le_iff_toNat_le] at hs
  rw [h.above_eq, List.length_drop]
  simp only [last]
  omega

theorem WellFormed.above_nil {t : Trace} (h : t.WellFormed) {s : UInt64}
    (hs : t.last ≤ s.toNat) : t.above s = [] := by
  rw [h.above_eq]
  apply List.drop_of_length_le
  simp only [last] at hs
  omega

/-! ## The live state stays well formed -/

private theorem wellFormed_snapshot {t : Trace} {index : UInt64} (hwf : t.WellFormed)
    (hnewer : t.live.snapshotIndex.toNat ≤ index.toNat) :
    Contiguous index.toNat (t.live.log.filter fun entry => index < entry.index) ∧
      index.toNat + (t.live.log.filter fun entry => index < entry.index).length =
        max index.toNat t.last := by
  have hlength := hwf.above_length (UInt64.le_iff_toNat_le.mpr hnewer)
  refine ⟨?_, hlength⟩
  by_cases hinside : index.toNat ≤ t.last
  · have hdrop := hwf.contiguous.drop (index.toNat - t.live.snapshotIndex.toNat) (by
      simp only [last] at hinside
      omega)
    rw [Nat.add_sub_cancel' hnewer] at hdrop
    rwa [hwf.contiguous.filter_above]
  · have hempty := hwf.above_nil (by omega : t.last ≤ index.toNat)
    simp only [above] at hempty
    rw [hempty]
    trivial

def lastAfter (t : Trace) : Operation → Nat
  | .saveLogEntries entries => t.last + entries.length
  | .truncateLog first => first.toNat - 1
  | .installSnapshot index _ retain => if retain then max index.toNat t.last else index.toNat
  | _ => t.last

theorem WellFormed.last_perform {t : Trace} {operation : Operation} (hwf : t.WellFormed)
    (haccepts : t.Accepts operation) : (t.perform operation).last = t.lastAfter operation := by
  have hcommit := hwf.commit_le
  cases operation with
  | saveLogEntries entries =>
      simp only [last, Trace.perform, RecoveredState.perform, List.length_append, lastAfter]
      omega
  | truncateLog first =>
      obtain ⟨habove, hinside, -⟩ := haccepts
      have hlog : (t.perform (.truncateLog first)).live.log =
          t.live.log.take (first.toNat - t.live.snapshotIndex.toNat - 1) :=
        hwf.contiguous.filter_below first
      have hsnapshot := hwf.snapshot_le
      simp only [last] at hinside
      simp only [last, hlog, List.length_take, lastAfter]
      simp only [Trace.perform, RecoveredState.perform]
      omega
  | compact index term =>
      obtain ⟨hnewer, hinside, -⟩ := haccepts
      obtain ⟨-, hlength⟩ := wellFormed_snapshot hwf hnewer
      simp only [last, Trace.perform, RecoveredState.perform, lastAfter]
      rw [hlength]
      simp only [last] at hcommit ⊢
      omega
  | installSnapshot index term retain =>
      cases retain with
      | true => exact (wellFormed_snapshot hwf haccepts.1).2
      | false => simp [last, Trace.perform, RecoveredState.perform, lastAfter]
  | _ => rfl

theorem WellFormed.perform {t : Trace} {operation : Operation} (hwf : t.WellFormed)
    (haccepts : t.Accepts operation) : (t.perform operation).WellFormed := by
  have hsnapshot := hwf.snapshot_le
  have hcommit := hwf.commit_le
  have hcheckpoint := hwf.checkpoint_le
  have hbound := hwf.bound
  have hlast := hwf.last_perform haccepts
  cases operation with
  | saveHardState state => exact ⟨hwf.contiguous, hbound, hsnapshot, hcommit, hcheckpoint⟩
  | saveLogEntries entries =>
      obtain ⟨hentries, hroom⟩ := haccepts
      refine ⟨contiguous_append.mpr ⟨hwf.contiguous, hentries⟩, ?_, hsnapshot, ?_, hcheckpoint⟩
      · rwa [hlast]
      · rw [hlast]
        exact hcommit.trans (Nat.le_add_right _ _)
  | truncateLog first =>
      obtain ⟨habove, hinside, -⟩ := haccepts
      refine ⟨?_, ?_, hsnapshot, ?_, hcheckpoint⟩
      · simp only [Trace.perform, RecoveredState.perform]
        rw [hwf.contiguous.filter_below first]
        exact hwf.contiguous.take _
      · rw [hlast, lastAfter]
        omega
      · rw [hlast]
        simp only [Trace.perform, RecoveredState.perform, lastAfter]
        omega
  | saveCommitIndex index =>
      obtain ⟨hlow, hhigh⟩ := haccepts
      exact ⟨hwf.contiguous, hbound, hsnapshot.trans hlow, hhigh, hcheckpoint.trans hlow⟩
  | compact index term =>
      obtain ⟨hnewer, hinside, -⟩ := haccepts
      obtain ⟨hcontiguous, -⟩ := wellFormed_snapshot hwf hnewer
      exact ⟨hcontiguous, by rwa [hlast], hinside, by rw [hlast]; exact hcommit, le_rfl⟩
  | installSnapshot index term retain =>
      obtain ⟨hnewer, hdiscard, -⟩ := haccepts
      obtain ⟨hcontiguous, -⟩ := wellFormed_snapshot hwf hnewer
      have hindex := index.toNat_lt
      simp only [lastAfter] at hlast
      refine ⟨?_, by rw [hlast]; split <;> omega, ?_, ?_, le_rfl⟩
      · cases retain with
        | true => simpa [Trace.perform, RecoveredState.perform] using hcontiguous
        | false => simp [Trace.perform, RecoveredState.perform, Contiguous]
      · simp only [Trace.perform, RecoveredState.perform, UInt64.toNat_max]
        omega
      · rw [hlast]
        simp only [Trace.perform, RecoveredState.perform, UInt64.toNat_max]
        split
        · omega
        · next hretain =>
            have := hdiscard (by simpa using hretain)
            omega
  | reopen size => exact ⟨hwf.contiguous, hbound, hsnapshot, hcommit, hcheckpoint⟩

/-! ## The calls, one by one -/

section Views

variable {t : Trace} {records : List Record} {operation : Operation} {s : UInt64}
  {log : List LogEntry} {committed : Nat}

private theorem viewAll_entries {entries : List LogEntry} :
    ∀ {last : Nat} {v : LogView}, Contiguous last entries →
      s.toNat + v.log.length = max s.toNat last →
      Record.viewAll s v (entries.map .entry) =
        some { v with log := v.log ++ entries.filter fun entry => s < entry.index } := by
  induction entries with
  | nil => simp [Record.viewAll]
  | cons entry entries ih =>
      intro last v hcontiguous hlength
      have hindex := hcontiguous.1
      simp only [List.map_cons, Record.viewAll, Record.view]
      by_cases hs : s < entry.index
      · have hs' := UInt64.lt_iff_toNat_lt.mp hs
        have hnext : entry.index.toNat = s.toNat + v.log.length + 1 := by omega
        rw [if_neg (UInt64.not_le.mpr hs), if_pos hnext, Option.bind_some,
          ih hcontiguous.2 (by simp only [List.length_append, List.length_singleton]; omega)]
        simp [hs]
      · have hs' : entry.index.toNat ≤ s.toNat :=
          UInt64.le_iff_toNat_le.mp (UInt64.not_lt.mp hs)
        rw [if_pos (UInt64.not_lt.mp hs), Option.bind_some,
          ih hcontiguous.2 (by omega)]
        simp [hs]

private theorem viewAll_entries_below {entries : List LogEntry} {v : LogView} :
    ∀ {last : Nat}, Contiguous last entries → last + entries.length ≤ s.toNat →
      Record.viewAll s v (entries.map .entry) = some v := by
  induction entries with
  | nil => exact fun _ _ => rfl
  | cons entry entries ih =>
      intro last hcontiguous hbelow
      rw [List.length_cons] at hbelow
      have hindex := hcontiguous.1
      have hle : entry.index ≤ s := UInt64.le_iff_toNat_le.mpr (by omega)
      simp only [List.map_cons, Record.viewAll, Record.view, if_pos hle, Option.bind_some]
      exact ih hcontiguous.2 (by omega)

private theorem view_truncateLog {first : UInt64} (hwf : t.WellFormed)
    (haccepts : t.Accepts (.truncateLog first)) (hs : t.live.snapshotIndex ≤ s)
    (hcut : first ≤ s → t.live.lastIndex ≤ s) (hle : committed ≤ t.live.commitIndex.toNat) :
    Record.viewAll s ⟨t.above s, committed⟩ [.truncation first] =
      some ⟨(t.perform (.truncateLog first)).above s, committed⟩ := by
  obtain ⟨hcommit, hinside, hnowrap⟩ := haccepts
  have hnew : (t.perform (.truncateLog first)).above s =
      (t.above s).filter fun entry => entry.index < first := by
    simp only [above, perform, RecoveredState.perform, List.filter_filter, Bool.and_comm]
  rw [hnew]
  simp only [Record.viewAll, Record.view]
  by_cases hfirst : first ≤ s
  · have hempty : t.above s = [] := hwf.above_nil (by
      rw [← hwf.lastIndex]
      exact UInt64.le_iff_toNat_le.mp (hcut hfirst))
    simp [hfirst, hempty]
  · have hlt := UInt64.lt_iff_toNat_lt.mp (UInt64.not_le.mp hfirst)
    have hlength := hwf.above_length hs
    have hcontiguous : Contiguous s.toNat (t.above s) := by
      have hbase := UInt64.le_iff_toNat_le.mp hs
      rw [hwf.above_eq]
      have := hwf.contiguous.drop (s.toNat - t.live.snapshotIndex.toNat) (by
        simp only [last] at hinside
        omega)
      rwa [Nat.add_sub_cancel' hbase] at this
    rw [if_neg hfirst, if_pos ⟨by omega, by omega, by omega⟩]
    simp [hcontiguous.filter_below]

private theorem above_snapshot {index : UInt64} (hs : index ≤ s) :
    (t.live.log.filter fun entry => index < entry.index).filter (fun entry => s < entry.index) =
      t.above s := by
  simp only [above, List.filter_filter]
  apply List.filter_congr
  intro entry _
  by_cases h : s < entry.index
  · have : index < entry.index := UInt64.lt_of_le_of_lt hs h
    simp [h, this]
  · simp [h]

private theorem toNat_index_succ {index last : UInt64} (h : index < last) :
    (index + 1).toNat = index.toNat + 1 := by
  have hlt := UInt64.lt_iff_toNat_lt.mp h
  have hbound := last.toNat_lt
  rw [UInt64.toNat_add]
  simp only [UInt64.reduceToNat]
  omega

private theorem index_succ_le {index last : UInt64} (h : index < last) : index + 1 ≤ last := by
  rw [UInt64.le_iff_toNat_le, toNat_index_succ h]
  exact UInt64.lt_iff_toNat_lt.mp h

/-- What replay makes of an install: nothing, unless it discards the log right above `s`. -/
private theorem view_installSnapshot {index term : UInt64} {retain : Bool}
    (haccepts : t.Accepts (.installSnapshot index term retain)) (hs : index ≤ s)
    (hle : committed ≤ t.live.commitIndex.toNat) (hardState : HardState) :
    Record.viewAll s ⟨log, committed⟩
        (t.recordsOf hardState (.installSnapshot index term retain)) =
      some ⟨if retain = false ∧ index < t.live.lastIndex ∧ index = s then [] else log,
        committed⟩ := by
  obtain ⟨-, hdiscard, -⟩ := haccepts
  simp only [recordsOf]
  split
  · next hcut =>
      -- A discarding install that removes entries.
      obtain ⟨rfl, hlast⟩ := hcut
      have hbound := t.live.lastIndex.toNat_lt
      have hlt := UInt64.lt_iff_toNat_lt.mp hlast
      have hsucc := toNat_index_succ hlast
      have hnonzero : index + 1 ≠ 0 := by
        intro hzero
        rw [hzero] at hsucc
        simp at hsucc
      simp only [Record.viewAll]
      by_cases hsame : index = s
      · subst hsame
        have hbelow : ¬ index + 1 ≤ index := by
          rw [UInt64.le_iff_toNat_le]
          omega
        have hcommitted := hdiscard rfl
        have hclear := Record.view_checkpoint_cut (c := t.checkpointOf hardState index term
          (max t.live.commitIndex index) (index + 1)) ⟨log, committed⟩ hnonzero
        simp only [checkpointOf] at hclear ⊢
        rw [hclear, Option.bind_some, Record.view, if_neg hbelow, if_pos]
        · simp [hlast]
        · simp only [List.length_nil]
          omega
      · have hbelow := index_succ_le (UInt64.lt_of_le_of_ne hs hsame)
        rw [Record.view_checkpoint_keep _ hs (fun _ => hsame), Option.bind_some,
          Record.view, if_pos hbelow, if_neg fun h => hsame h.2.2]
        rfl
  · next hkeep =>
      simp only [Record.viewAll]
      rw [Record.view_checkpoint_keep _ hs (fun h => absurd rfl h), Option.bind_some,
        if_neg fun h => hkeep ⟨h.1, h.2.1⟩]

private theorem above_installSnapshot {index term : UInt64} {retain : Bool} (hwf : t.WellFormed)
    (hs : index ≤ s) (hcut : retain = false → index < t.live.lastIndex → index ≠ s →
      t.live.lastIndex ≤ s) :
    (t.perform (.installSnapshot index term retain)).above s =
      if retain = false ∧ index < t.live.lastIndex ∧ index = s then [] else t.above s := by
  cases retain with
  | true =>
      simp only [above, perform, RecoveredState.perform, if_true, Bool.true_eq_false, false_and,
        if_false]
      exact above_snapshot hs
  | false =>
      split
      · simp [above, perform, RecoveredState.perform]
      · next hkeep =>
          have hempty : t.above s = [] := hwf.above_nil (by
            rw [← hwf.lastIndex, ← UInt64.le_iff_toNat_le]
            by_cases hlast : index < t.live.lastIndex
            · exact hcut rfl hlast fun hsame => hkeep ⟨rfl, hlast, hsame⟩
            · exact UInt64.le_trans (UInt64.not_lt.mp hlast) hs)
          rw [hempty]
          simp [above, perform, RecoveredState.perform]

/-- The largest commit record seen, after the records of a call. -/
def seenAfter (t : Trace) (committed : Nat) : Operation → Nat
  | .saveCommitIndex index =>
      if index = t.live.commitIndex then committed else max committed index.toNat
  | _ => committed

private theorem seenAfter_bounds (haccepts : t.Accepts operation)
    (hle : committed ≤ t.live.commitIndex.toNat)
    (hge : t.live.commitIndex.toNat ≤ max t.checkpointCommit.toNat committed) :
    t.seenAfter committed operation ≤ (t.perform operation).live.commitIndex.toNat ∧
      (t.perform operation).live.commitIndex.toNat ≤
        max (t.perform operation).checkpointCommit.toNat (t.seenAfter committed operation) := by
  cases operation with
  | saveCommitIndex index =>
      obtain ⟨hcommit, -⟩ := haccepts
      simp only [seenAfter, perform, RecoveredState.perform]
      split
      · next hsame =>
          rw [hsame]
          exact ⟨hle, hge⟩
      · omega
  | compact index term => exact ⟨hle, le_max_left _ _⟩
  | installSnapshot index term retain =>
      refine ⟨?_, le_max_left _ _⟩
      simp only [seenAfter, perform, RecoveredState.perform, UInt64.toNat_max]
      omega
  | _ => exact ⟨hle, hge⟩

/-- Replay of a call whose truncation, if any, is faithful at `s`. -/
private theorem view_faithful (hwf : t.WellFormed) (haccepts : t.Accepts operation)
    (hs : (t.perform operation).live.snapshotIndex ≤ s) (hbase : t.live.snapshotIndex ≤ s)
    (hcut : ∀ cut ∈ t.cut operation, cut.first ≤ s → cut.last ≤ s)
    (hle : committed ≤ t.live.commitIndex.toNat) (hardState : HardState) :
    Record.viewAll s ⟨t.above s, committed⟩ (t.recordsOf hardState operation) =
      some ⟨(t.perform operation).above s, t.seenAfter committed operation⟩ := by
  have hlength := hwf.above_length hbase
  cases operation with
  | saveLogEntries entries =>
      rw [recordsOf, viewAll_entries haccepts.1 hlength]
      simp [above, perform, RecoveredState.perform, List.filter_append, seenAfter]
  | truncateLog first =>
      exact view_truncateLog hwf haccepts hbase
        (hcut ⟨first, t.live.lastIndex, 0⟩ (by simp [cut])) hle
  | saveCommitIndex index =>
      obtain ⟨-, hinside⟩ := haccepts
      simp only [recordsOf, seenAfter]
      split
      · rfl
      · simp only [Record.viewAll, Record.view]
        rw [if_pos (by omega)]
        rfl
  | compact index term =>
      simp only [recordsOf, Record.viewAll]
      rw [Record.view_checkpoint_keep _ hs (fun h => absurd rfl h), Option.bind_some]
      simp only [above, perform, RecoveredState.perform]
      rw [above_snapshot (show index ≤ s from hs)]
      rfl
  | installSnapshot index term retain =>
      replace hs : index ≤ s := hs
      rw [view_installSnapshot haccepts hs hle, above_installSnapshot hwf hs]
      · rfl
      · rintro rfl hlast hne
        refine hcut ⟨index + 1, t.live.lastIndex, 0⟩ (by simp [cut, hlast]) ?_
        exact index_succ_le (UInt64.lt_of_le_of_ne hs hne)
  | _ => rfl

/-- Replay of a call that leaves nothing above `s`, over what an earlier truncation left there. -/
private theorem view_stale (hwf : t.WellFormed) (haccepts : t.Accepts operation)
    (hs : (t.perform operation).live.snapshotIndex ≤ s)
    (hwithin : (t.perform operation).last ≤ s.toNat)
    (hroom : s.toNat + log.length + 1 < 2 ^ 64)
    (hle : committed ≤ t.live.commitIndex.toNat) (hardState : HardState) :
    ∃ log', Record.viewAll s ⟨log, committed⟩ (t.recordsOf hardState operation) =
      some ⟨log', t.seenAfter committed operation⟩ ∧ log'.length ≤ log.length := by
  rw [hwf.last_perform haccepts] at hwithin
  cases operation with
  | saveLogEntries entries =>
      exact ⟨log, viewAll_entries_below haccepts.1 hwithin, le_rfl⟩
  | truncateLog first =>
      obtain ⟨hcommit, -, -⟩ := haccepts
      simp only [lastAfter] at hwithin
      simp only [recordsOf, Record.viewAll, Record.view]
      split
      · exact ⟨log, rfl, le_rfl⟩
      · rw [if_pos ⟨by omega, by omega, hroom⟩]
        exact ⟨_, rfl, List.length_take_le' _ _⟩
  | saveCommitIndex index =>
      obtain ⟨-, hinside⟩ := haccepts
      simp only [lastAfter] at hwithin
      simp only [recordsOf, seenAfter]
      split
      · exact ⟨log, rfl, le_rfl⟩
      · refine ⟨log, ?_, le_rfl⟩
        simp only [Record.viewAll, Record.view]
        rw [if_pos (by omega)]
        rfl
  | compact index term =>
      refine ⟨log, ?_, le_rfl⟩
      simp only [recordsOf, Record.viewAll]
      rw [Record.view_checkpoint_keep _ hs (fun h => absurd rfl h)]
      rfl
  | installSnapshot index term retain =>
      refine ⟨_, view_installSnapshot haccepts hs hle hardState, ?_⟩
      split
      · exact Nat.zero_le _
      · exact le_rfl
  | _ => exact ⟨log, rfl, le_rfl⟩

private theorem extend_reached_le {cut : Cut} {last : UInt64} :
    (cut.extend last).reached ≤ s ↔ cut.reached ≤ s ∧ last ≤ s := by
  simp only [Cut.extend, UInt64.le_iff_toNat_le, UInt64.toNat_max, Nat.max_le]

theorem HarmlessAt.before (h : (t.perform operation).HarmlessAt s) : t.HarmlessAt s := by
  intro cut hcut hfirst
  rcases h (cut.extend _) (List.mem_map_of_mem (List.mem_append_left _ hcut)) hfirst with
    hlast | ⟨hreached, hroom⟩
  · exact .inl hlast
  · exact .inr ⟨(extend_reached_le.mp hreached).1, hroom⟩

theorem FaithfulAt.before (h : (t.perform operation).FaithfulAt s) : t.FaithfulAt s :=
  fun cut hcut => h (cut.extend _) (List.mem_map_of_mem (List.mem_append_left _ hcut))

theorem FaithfulAt.cut (h : (t.perform operation).FaithfulAt s) :
    ∀ cut ∈ t.cut operation, cut.first ≤ s → cut.last ≤ s :=
  fun cut hcut => h (cut.extend _) (List.mem_map_of_mem (List.mem_append_right _ hcut))

/--
At every later Snapshot index the past is harmless to, replay goes through.  It
finds the live log if the past is faithful.
-/
def Viewed (t : Trace) (records : List Record) : Prop :=
  ∀ s, t.live.snapshotIndex ≤ s → t.HarmlessAt s → ∃ log committed,
    Record.viewAll s {} records = some ⟨log, committed⟩ ∧
      committed ≤ t.live.commitIndex.toNat ∧
      t.live.commitIndex.toNat ≤ max t.checkpointCommit.toNat committed ∧
      (t.FaithfulAt s → log = t.above s) ∧
      (¬ t.FaithfulAt s → s.toNat + log.length + 1 < 2 ^ 64)

theorem FaithfulAt.harmless (h : t.FaithfulAt s) : t.HarmlessAt s :=
  fun cut hcut hfirst => .inl (h cut hcut hfirst)

theorem cut_last : ∀ cut ∈ t.cut operation, cut.last = t.live.lastIndex := by
  intro cut hcut
  cases operation with
  | truncateLog first =>
      rw [List.mem_singleton.mp hcut]
  | installSnapshot index term retain =>
      simp only [Trace.cut] at hcut
      split at hcut
      · rw [List.mem_singleton.mp hcut]
      · simp at hcut
  | _ => simp [Trace.cut] at hcut

/-- A truncation that is not faithful, but harmless: the log has ended within `s` since. -/
theorem HarmlessAt.within (h : (t.perform operation).HarmlessAt s)
    (hfaithful : ¬ (t.perform operation).FaithfulAt s) :
    ∃ cut ∈ t.cuts ++ t.cut operation, cut.first ≤ s ∧ s < cut.last ∧
      (t.perform operation).live.lastIndex ≤ s ∧ cut.last + 1 ≠ 0 := by
  simp only [FaithfulAt, not_forall] at hfaithful
  obtain ⟨found, hfound, hfirst, habove⟩ := hfaithful
  obtain ⟨hreached, hnowrap⟩ := (h found hfound hfirst).resolve_left habove
  obtain ⟨cut, hcut, rfl⟩ := List.mem_map.mp hfound
  exact ⟨cut, hcut, hfirst, UInt64.not_le.mp habove, (extend_reached_le.mp hreached).2, hnowrap⟩

theorem Accepts.snapshotIndex_le (haccepts : t.Accepts operation) :
    t.live.snapshotIndex ≤ (t.perform operation).live.snapshotIndex := by
  cases operation with
  | compact _ _ | installSnapshot _ _ _ => exact UInt64.le_iff_toNat_le.mpr haccepts.1
  | _ => exact UInt64.le_rfl

theorem viewed_perform (hwf : t.WellFormed) (hviewed : t.Viewed records)
    (haccepts : t.Accepts operation) (hardState : HardState) :
    (t.perform operation).Viewed (records ++ t.recordsOf hardState operation) := by
  intro s hs hharmless
  have hbase : t.live.snapshotIndex ≤ s := UInt64.le_trans haccepts.snapshotIndex_le hs
  have hwf' := hwf.perform haccepts
  obtain ⟨log, committed, hview, hle, hge, hlog, hroom⟩ := hviewed s hbase hharmless.before
  have hbounds := seenAfter_bounds haccepts hle hge
  simp only [Record.viewAll_append, hview, Option.bind_some]
  by_cases hfaithful : (t.perform operation).FaithfulAt s
  · -- Replay has followed the live log so far, and the call's own truncation is faithful.
    rw [hlog hfaithful.before, view_faithful hwf haccepts hs hbase hfaithful.cut hle hardState]
    exact ⟨_, _, rfl, hbounds.1, hbounds.2, fun _ => rfl, fun h => absurd hfaithful h⟩
  · -- The live log now ends within `s`, whatever replay holds above.
    obtain ⟨cut, hcut, hfirst, habove, hlast, hnowrap⟩ := hharmless.within hfaithful
    rw [UInt64.le_iff_toNat_le, hwf'.lastIndex] at hlast
    have hroom : s.toNat + log.length + 1 < 2 ^ 64 := by
      by_cases hbefore : t.FaithfulAt s
      · have hnew : cut ∈ t.cut operation :=
          (List.mem_append.mp hcut).resolve_left fun hold =>
            absurd (hbefore cut hold hfirst) (UInt64.not_le.mpr habove)
        rw [cut_last cut hnew] at habove hnowrap
        have habove := UInt64.lt_iff_toNat_lt.mp habove
        have hsucc : t.live.lastIndex.toNat + 1 ≠ 2 ^ 64 := fun hwrap =>
          hnowrap (UInt64.toNat_inj.mp (by rw [UInt64.toNat_add]; simp [hwrap]))
        have hbound := t.live.lastIndex.toNat_lt
        have hlength := hwf.above_length hbase
        rw [hwf.lastIndex] at habove hsucc hbound
        rw [hlog hbefore]
        omega
      · exact hroom hbefore
    obtain ⟨log', hview', hlength⟩ := view_stale hwf haccepts hs hlast hroom hle hardState
    exact ⟨log', _, hview', hbounds.1, hbounds.2, fun h => absurd h hfaithful,
      fun _ => lt_of_le_of_lt (by omega) hroom⟩

end Views

end Trace

end QuorumKV.Wal
