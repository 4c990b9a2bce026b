import QuorumKV.Wal.Usable

/-!
# How far a replay reaches

A replay that starts at a Snapshot index either stops at a record that does not fit
or reaches at least as far as the log did when the records were written.  This holds
at every Snapshot index from the current one on and in every history, also in those
where a truncated entry comes back: what comes back only makes the log longer.

Replay itself never compares the commit index with the entries.  What recovery returns
is usable exactly when each committed entry is among the records that survive.
-/

namespace QuorumKV.Wal

open Foundation
open QuorumKV.Raft (Bytes)

def Record.reach (s : UInt64) (last : Nat) : Record → Option Nat
  | .entry e =>
      if e.index ≤ s then some last
      else if e.index.toNat = last + 1 then some (last + 1)
      else none
  | .truncation first =>
      if first ≤ s then some last
      else if first.toNat ≤ last + 1 then some (first.toNat - 1)
      else none
  | .checkpoint c =>
      if c.truncateFrom ≠ 0 ∧ c.snapshotIndex = s then some s.toNat else some last
  | _ => some last

/-- Unless it stops, a replay from `last` on finds every recorded commit index within the log
and ends at a last index with the property. -/
def Reaches (s : UInt64) (P : Nat → Prop) (last : Nat) : List Record → Prop
  | [] => P last
  | record :: records =>
      (∀ index, record = .commit index → index.toNat ≤ last) ∧
        ∀ last', record.reach s last = some last' → Reaches s P last' records

section Reaches

variable {s : UInt64} {P Q : Nat → Prop} {last last' : Nat} {records others : List Record}
  {record : Record}

theorem reaches_append :
    Reaches s P last (records ++ others) ↔
      Reaches s (fun reached => Reaches s P reached others) last records := by
  induction records generalizing last with
  | nil => rfl
  | cons record records ih =>
      simp only [List.cons_append, Reaches, ih]

theorem Record.reach_ge (hlast : s.toNat ≤ last) (hreach : record.reach s last = some last') :
    s.toNat ≤ last' := by
  cases record with
  | entry e =>
      simp only [Record.reach] at hreach
      split at hreach
      · cases hreach
        exact hlast
      · split at hreach
        · cases hreach
          omega
        · simp at hreach
  | truncation first =>
      simp only [Record.reach] at hreach
      split at hreach
      · cases hreach
        exact hlast
      next habove =>
        rw [UInt64.not_le, UInt64.lt_iff_toNat_lt] at habove
        split at hreach
        · cases hreach
          omega
        · simp at hreach
  | checkpoint c =>
      simp only [Record.reach] at hreach
      split at hreach
      · cases hreach
        exact le_rfl
      · cases hreach
        exact hlast
  | _ =>
      cases hreach
      exact hlast

theorem Reaches.imp (hreaches : Reaches s P last records)
    (himplies : ∀ reached, P reached → Q reached) : Reaches s Q last records := by
  induction records generalizing last with
  | nil => exact himplies last hreaches
  | cons record records ih =>
      exact ⟨hreaches.1, fun last' hreach => ih (hreaches.2 last' hreach)⟩

theorem Reaches.mono (hreaches : Reaches s P last records) (hlast : s.toNat ≤ last)
    (himplies : ∀ reached, s.toNat ≤ reached → P reached → Q reached) :
    Reaches s Q last records := by
  induction records generalizing last with
  | nil => exact himplies last hlast hreaches
  | cons record records ih =>
      refine ⟨hreaches.1, fun last' hreach => ?_⟩
      exact ih (hreaches.2 last' hreach) (Record.reach_ge hlast hreach)

theorem Record.reach_covered {covered : UInt64} (last : Nat)
    (hcovered : record.coveredBy covered) (hle : covered ≤ s)
    (hcheckpoint : ∀ c, record = .checkpoint c → c.truncateFrom ≠ 0 → c.snapshotIndex ≠ s) :
    record.reach s last = some last := by
  cases record with
  | entry e =>
      have : e.index ≤ s := UInt64.le_trans (of_decide_eq_true hcovered) hle
      rw [Record.reach, if_pos this]
  | truncation first =>
      have : first ≤ s := UInt64.le_trans (of_decide_eq_true hcovered) hle
      rw [Record.reach, if_pos this]
  | checkpoint c =>
      rw [Record.reach, if_neg fun h => hcheckpoint c rfl h.1 h.2]
  | _ => rfl

theorem Reaches.uncover {covered : UInt64} (hpaired : Paired records)
    (hcovered : ∀ r ∈ records, r.coveredBy covered) (hle : covered ≤ s)
    (hreaches : Reaches s P last (records ++ others)) :
    Reaches s P last others := by
  have hcheckpoint : ∀ c, .checkpoint c ∈ records → c.truncateFrom ≠ 0 → c.snapshotIndex ≠ s := by
    intro c hc hfrom heq
    exact absurd (hpaired.snapshotIndex_lt hcovered hc hfrom) (UInt64.not_lt.mpr (heq ▸ hle))
  clear hpaired
  induction records with
  | nil => exact hreaches
  | cons record records ih =>
      have hfirst := Record.reach_covered last (hcovered record (by simp)) hle
        (fun c hc => hcheckpoint c (by simp [hc]))
      exact ih (fun r hr => hcovered r (by simp [hr])) (hreaches.2 last hfirst)
        (fun c hc => hcheckpoint c (by simp [hc]))

theorem Reaches.uncovered {blocks : List Block} {covered : UInt64}
    (hpaired : ∀ block ∈ blocks, Paired block.records) (hle : covered ≤ s)
    (hreaches : Reaches s P last (blockRecords blocks ++ others)) :
    Reaches s P last (blockRecords (Wal.uncovered covered blocks) ++ others) := by
  induction blocks generalizing last with
  | nil => exact hreaches
  | cons block blocks ih =>
      have hrest := fun last => @ih last fun b hb => hpaired b (by simp [hb])
      rw [blockRecords, List.flatMap_cons, List.append_assoc] at hreaches
      rw [Wal.uncovered]
      by_cases hcovered : block.records.all (Record.coveredBy covered)
      · rw [List.filter_cons_of_neg (by simp [hcovered])]
        exact hrest last (hreaches.uncover (hpaired block (by simp))
          (List.all_eq_true.mp hcovered) hle)
      · rw [List.filter_cons_of_pos (by simpa using hcovered), blockRecords, List.flatMap_cons,
          List.append_assoc, reaches_append]
        rw [reaches_append] at hreaches
        exact hreaches.imp fun reached hreached => hrest reached hreached

theorem Record.reach_le {s' : UInt64} {early early' : Nat} (hs : s' ≤ s) (hearly : early ≤ last)
    (hlast : s.toNat ≤ last)
    (hcheckpoint : ∀ c, record = .checkpoint c → c.snapshotIndex ≤ s')
    (hfirst : record.reach s' early = some early') (hsecond : record.reach s last = some last') :
    early' ≤ last' := by
  have hbound := Record.reach_ge hlast hsecond
  cases record with
  | entry e =>
      simp only [Record.reach] at hfirst hsecond
      split at hfirst
      next hbelow =>
        cases hfirst
        rw [if_pos (UInt64.le_trans hbelow hs)] at hsecond
        cases hsecond
        exact hearly
      · split at hfirst
        next hindex =>
          cases hfirst
          split at hsecond
          next hbelow =>
            cases hsecond
            rw [UInt64.le_iff_toNat_le] at hbelow
            omega
          · split at hsecond
            · cases hsecond
              omega
            · simp at hsecond
        · simp at hfirst
  | truncation first =>
      simp only [Record.reach] at hfirst hsecond
      split at hfirst
      next hbelow =>
        cases hfirst
        rw [if_pos (UInt64.le_trans hbelow hs)] at hsecond
        cases hsecond
        exact hearly
      · split at hfirst
        · cases hfirst
          split at hsecond
          next hbelow =>
            cases hsecond
            rw [UInt64.le_iff_toNat_le] at hbelow
            omega
          · split at hsecond
            · cases hsecond
              exact le_rfl
            · simp at hsecond
        · simp at hfirst
  | checkpoint c =>
      simp only [Record.reach] at hfirst hsecond
      have hsnapshot := hcheckpoint c rfl
      rw [UInt64.le_iff_toNat_le] at hs hsnapshot
      split at hfirst
      · cases hfirst
        omega
      next hother =>
        cases hfirst
        split at hsecond
        next hcut =>
          -- Both indexes are the checkpoint's own, so the earlier replay was cut too.
          refine absurd ⟨hcut.1, UInt64.toNat_inj.mp ?_⟩ hother
          have := congrArg UInt64.toNat hcut.2
          omega
        · cases hsecond
          exact hearly
  | _ =>
      cases hfirst
      cases hsecond
      exact hearly

def Record.reachAll (s : UInt64) (last : Nat) : List Record → Option Nat
  | [] => some last
  | record :: records => (record.reach s last).bind fun last => reachAll s last records

theorem Reaches.after (hreaches : Reaches s P last (records ++ others))
    (hreached : Record.reachAll s last records = some last') : Reaches s P last' others := by
  induction records generalizing last with
  | nil =>
      cases hreached
      exact hreaches
  | cons record records ih =>
      rw [Record.reachAll, Option.bind_eq_some_iff] at hreached
      obtain ⟨middle, hfirst, hrest⟩ := hreached
      exact ih (hreaches.2 middle hfirst) hrest

theorem Reaches.reopen {s' : UInt64} {early reached : Nat} (hs : s' ≤ s) (hearly : early ≤ last)
    (hlast : s.toNat ≤ last)
    (hcheckpoints : ∀ c, .checkpoint c ∈ records → c.snapshotIndex ≤ s')
    (hreaches : Reaches s P last records)
    (hreached : Record.reachAll s' early records = some reached) :
    Reaches s (fun final => reached ≤ final) last records := by
  induction records generalizing last early with
  | nil =>
      cases hreached
      exact hearly
  | cons record records ih =>
      rw [Record.reachAll, Option.bind_eq_some_iff] at hreached
      obtain ⟨middle, hfirst, hrest⟩ := hreached
      refine ⟨hreaches.1, fun last' hreach => ?_⟩
      exact ih (Record.reach_le hs hearly hlast (fun c hc => hcheckpoints c (by simp [hc]))
        hfirst hreach) (Record.reach_ge hlast hreach)
        (fun c hc => hcheckpoints c (by simp [hc])) (hreaches.2 last' hreach) hrest

end Reaches

/-! ## Replays and their reach -/

section Replay

variable {state state' : RecoveredState} {record : Record} {records : List Record}

theorem Record.replay_ok (hok : record.replay state = .ok state') :
    state'.hardState = record.hardStep state.hardState ∧
      (record.Of state.identity → state'.identity = state.identity) := by
  cases record with
  | clusterIdentity id =>
      obtain ⟨-, rfl⟩ := RecoveredState.applyClusterIdentity_ok hok
      exact ⟨rfl, fun hof => by rw [show id = _ from hof]⟩
  | nodeIdentity id =>
      obtain ⟨-, -, rfl⟩ := RecoveredState.applyNodeIdentity_ok hok
      exact ⟨rfl, fun hof => by rw [show id = _ from hof]⟩
  | hardState h =>
      obtain rfl := Record.replay_hardState_ok hok
      exact ⟨rfl, fun _ => rfl⟩
  | entry entry =>
      rcases RecoveredState.appendEntry_ok hok with ⟨-, rfl⟩ | ⟨-, -, rfl⟩ <;>
        exact ⟨rfl, fun _ => rfl⟩
  | truncation first =>
      rcases RecoveredState.applyTruncation_ok hok with ⟨-, rfl⟩ | ⟨-, -, rfl⟩ <;>
        exact ⟨rfl, fun _ => rfl⟩
  | commit index =>
      rcases RecoveredState.applyCommitIndex_ok hok with ⟨-, rfl⟩ | ⟨-, rfl⟩ <;>
        exact ⟨rfl, fun _ => rfl⟩
  | checkpoint c =>
      rcases RecoveredState.applyCheckpoint_ok hok with ⟨-, rfl⟩ | ⟨-, -, -, rfl⟩ <;>
        exact ⟨rfl, fun _ => rfl⟩

/-! How far the log reaches after each step. -/

theorem RecoveredState.Usable.reach_entry {entry : LogEntry} (h : state.Usable)
    (hok : state.appendEntry entry = .ok state') :
    (Record.entry entry).reach state.snapshotIndex state.last = some state'.last := by
  rw [Record.reach]
  rcases RecoveredState.appendEntry_ok hok with ⟨hbelow, rfl⟩ | ⟨habove, hindex, rfl⟩
  · rw [if_pos hbelow]
  · rw [if_neg (UInt64.not_le.mpr habove),
      if_pos (RecoveredState.next_index h.contiguous habove hindex)]
    simp only [RecoveredState.last, List.length_append, List.length_singleton]
    rfl

theorem RecoveredState.Usable.reach_truncation {first : UInt64} (h : state.Usable)
    (hok : state.applyTruncation first = .ok state') :
    (Record.truncation first).reach state.snapshotIndex state.last = some state'.last := by
  rw [Record.reach]
  rcases RecoveredState.applyTruncation_ok hok with ⟨hbelow, rfl⟩ | ⟨habove, hinside, rfl⟩
  · rw [if_pos hbelow]
  · obtain ⟨hcount, hle⟩ := RecoveredState.truncation_count h.contiguous habove hinside
    rw [if_neg (UInt64.not_le.mpr habove)]
    rw [UInt64.lt_iff_toNat_lt] at habove
    rw [if_pos (by rw [RecoveredState.last]; omega), Option.some.injEq]
    simp only [RecoveredState.last, List.length_take, hcount]
    omega

theorem RecoveredState.Usable.takeWhile_nil {first : UInt64} (h : state.Usable)
    (hfirst : first ≠ 0) (hsucc : first = state.snapshotIndex + 1) :
    state.log.takeWhile (fun entry => entry.index < first) = [] := by
  cases hlog : state.log with
  | nil => rfl
  | cons entry log =>
      have habove := h.contiguous.above entry (by simp [hlog])
      have hnonzero : first.toNat ≠ 0 := fun hzero => hfirst (UInt64.toNat_inj.mp hzero)
      have hvalue := congrArg UInt64.toNat hsucc
      have hbase := state.snapshotIndex.toNat_lt
      rw [UInt64.toNat_add] at hvalue
      simp only [UInt64.reduceToNat] at hvalue
      refine List.takeWhile_cons_of_neg ?_
      rw [decide_eq_true_eq, UInt64.lt_iff_toNat_lt]
      omega

theorem RecoveredState.Usable.reach_checkpoint {c : CompactionCheckpoint} (h : state.Usable)
    (hok : state.applyCheckpoint c = .ok state') :
    (Record.checkpoint c).reach state.snapshotIndex state.last = some state'.last := by
  rw [Record.reach]
  rcases RecoveredState.applyCheckpoint_ok hok with ⟨hother, rfl⟩ | ⟨hfrom, hsucc, hsame, rfl⟩
  · rw [if_neg hother]
  · rw [if_pos ⟨hfrom, hsame⟩, h.takeWhile_nil hfrom (hsame ▸ hsucc)]
    rfl

theorem Record.replay_reach (h : state.Usable) (hok : record.replay state = .ok state') :
    record.reach state.snapshotIndex state.last = some state'.last := by
  cases record with
  | clusterIdentity id =>
      obtain ⟨-, rfl⟩ := RecoveredState.applyClusterIdentity_ok hok
      rfl
  | nodeIdentity id =>
      obtain ⟨-, -, rfl⟩ := RecoveredState.applyNodeIdentity_ok hok
      rfl
  | hardState hardState =>
      obtain rfl := Record.replay_hardState_ok hok
      rfl
  | entry entry => exact h.reach_entry hok
  | truncation first => exact h.reach_truncation hok
  | commit index =>
      rcases RecoveredState.applyCommitIndex_ok hok with ⟨-, rfl⟩ | ⟨-, rfl⟩ <;> rfl
  | checkpoint c => exact h.reach_checkpoint hok

theorem Record.replayAll_reach (h : state.Usable)
    (hok : Record.replayAll state records = .ok state') :
    state'.Usable ∧ state'.snapshotIndex = state.snapshotIndex ∧
      state.commitIndex ≤ state'.commitIndex ∧
      (∀ index, .commit index ∈ records → index ≤ state'.commitIndex) ∧
      Record.reachAll state.snapshotIndex state.last records = some state'.last := by
  induction records generalizing state with
  | nil =>
      cases hok
      exact ⟨h, rfl, UInt64.le_rfl, by simp, rfl⟩
  | cons record records ih =>
      rw [Record.replayAll] at hok
      split at hok
      · simp at hok
      next next hnext =>
        have hraises := Record.replay_raises h hnext
        obtain ⟨husable, hindex, hcommit, hcommits, hrest⟩ := ih hraises.usable hok
        have hraised := hraises.commitIndex
        rw [UInt64.le_iff_toNat_le] at hcommit
        refine ⟨husable, hindex.trans hraises.snapshotIndex, ?_, ?_, ?_⟩
        · rw [UInt64.le_iff_toNat_le]
          omega
        · intro index hmem
          rcases List.mem_cons.mp hmem with rfl | hmem
          · rw [UInt64.le_iff_toNat_le]
            simp only [Record.commitIndex] at hraised
            omega
          · exact hcommits index hmem
        · rw [Record.reachAll, Record.replay_reach h hnext, Option.bind_some, ← hraises.snapshotIndex]
          exact hrest

theorem Record.replayAll_commit_le {bound : Nat} (h : state.Usable)
    (hok : Record.replayAll state records = .ok state') (hstart : state.commitIndex.toNat ≤ bound)
    (hcommits : ∀ index, .commit index ∈ records → index.toNat ≤ bound) :
    state'.commitIndex.toNat ≤ bound := by
  induction records generalizing state with
  | nil =>
      cases hok
      exact hstart
  | cons record records ih =>
      rw [Record.replayAll] at hok
      split at hok
      · simp at hok
      next next hnext =>
        have hraises := Record.replay_raises h hnext
        refine ih hraises.usable hok ?_ fun index hmem => hcommits index (by simp [hmem])
        have hraised := hraises.commitIndex
        have hrecord : record.commitIndex ≤ bound := by
          cases record with
          | commit index => exact hcommits index (by simp)
          | _ => exact Nat.zero_le _
        omega

end Replay

/-! ## The entries that survive -/

def Record.adds (i : Nat) : Record → Bool
  | .entry e => e.index.toNat == i
  | _ => false

def Record.removes (s : UInt64) (i : Nat) : Record → Bool
  | .truncation first => decide (s < first) && decide (first.toNat ≤ i)
  | .checkpoint c => decide (c.truncateFrom ≠ 0) && decide (c.snapshotIndex = s)
  | _ => false

def survives (s : UInt64) (i : Nat) : List Record → Bool
  | [] => false
  | record :: records =>
      survives s i records || record.adds i && !records.any (Record.removes s i)

section Surviving

variable {s : UInt64} {i last last' : Nat} {record : Record} {records : List Record}

theorem Record.reach_iff (hi : s.toNat < i) (hreach : record.reach s last = some last') :
    i ≤ last' ↔ i ≤ last ∧ record.removes s i = false ∨ record.adds i = true := by
  cases record with
  | entry e =>
      simp only [Record.reach, UInt64.le_iff_toNat_le] at hreach
      simp only [Record.removes, Record.adds, beq_iff_eq, and_true]
      split at hreach
      · cases hreach
        omega
      · split at hreach <;> cases hreach
        omega
  | truncation first =>
      simp only [Record.reach, UInt64.le_iff_toNat_le] at hreach
      simp only [Record.removes, Record.adds, UInt64.lt_iff_toNat_lt, Bool.and_eq_false_iff,
        decide_eq_false_iff_not, Bool.false_eq_true, or_false]
      split at hreach
      · cases hreach
        omega
      · split at hreach <;> cases hreach
        omega
  | checkpoint c =>
      simp only [Record.reach] at hreach
      simp only [Record.removes, Record.adds, Bool.and_eq_false_iff, decide_eq_false_iff_not,
        Bool.false_eq_true, ← not_and_or]
      split at hreach
      next hcut =>
        cases hreach
        simpa [hcut] using hi
      next hother =>
        cases hreach
        simp [hother]
  | _ =>
      cases hreach
      simp [Record.removes, Record.adds]

theorem reachAll_iff (hi : s.toNat < i) (hreach : Record.reachAll s last records = some last') :
    i ≤ last' ↔
      i ≤ last ∧ records.any (Record.removes s i) = false ∨ survives s i records = true := by
  induction records generalizing last with
  | nil =>
      cases hreach
      simp [survives]
  | cons record records ih =>
      rw [Record.reachAll, Option.bind_eq_some_iff] at hreach
      obtain ⟨middle, hfirst, hrest⟩ := hreach
      rw [ih hrest, Record.reach_iff hi hfirst]
      simp only [survives, List.any_cons, Bool.or_eq_false_iff, Bool.or_eq_true,
        Bool.and_eq_true, Bool.not_eq_true']
      tauto

end Surviving

/-! ## Results -/

/-- Every entry that a recorded commit index counts is recorded and survives. -/
def CommitsHeld (json : CheckpointJSON) (directory : List Segment) : Prop :=
  ∃ checkpoint records, newestCompactionCheckpoint json {} directory = .ok checkpoint ∧
    directoryRecords json directory = .ok records ∧
    ∀ commit, commit = checkpoint.commitIndex ∨ .commit commit ∈ records →
      ∀ i, checkpoint.snapshotIndex.toNat < i → i ≤ commit.toNat →
        survives checkpoint.snapshotIndex i records = true

/--
Whatever the directory holds, `Open` fails or recovers a contiguous log over a
committed Snapshot, under both identities.  The commit index lies within the log,
and the core applies all of it, exactly when every entry that a recorded commit
index counts survives among the records.
-/
theorem recovered_usable_iff {json : CheckpointJSON} {directory : List Segment}
    {identity : Identity} {size : Nat} {w : WAL} {recovered : RecoveredState}
    (hopen : openWAL json directory identity size = .ok (w, recovered)) :
    Contiguous recovered.snapshotIndex.toNat recovered.log ∧
      recovered.snapshotIndex ≤ recovered.commitIndex ∧
      recovered.identity.clusterID ≠ [] ∧ recovered.identity.nodeID ≠ [] ∧
      (recovered.Applies ↔ CommitsHeld json directory) := by
  obtain ⟨hnamed, -, hidentity, hfound⟩ := openWAL_ok hopen
  have hnames : recovered.identity.clusterID ≠ [] ∧ recovered.identity.nodeID ≠ [] := by
    rw [hidentity]
    exact ⟨blank_false hnamed.1, blank_false hnamed.2⟩
  obtain ⟨checkpoint, records, found, hnewest, hrecords, hstart, hreplay⟩ :
      ∃ checkpoint records found, newestCompactionCheckpoint json {} directory = .ok checkpoint ∧
        directoryRecords json directory = .ok records ∧ checkpoint.start.Usable ∧
        Record.replayAll checkpoint.start records =
          .ok { recovered with identity := found } := by
    rcases hfound with ⟨rfl, rfl⟩ | ⟨files, active, hrecover, -⟩
    · exact ⟨{}, [], {}, rfl, rfl, ⟨trivial, Nat.two_pow_pos 64, UInt64.le_rfl⟩, rfl⟩
    · obtain ⟨-, checkpoint, records, hrecorded⟩ := recoverSegments_usable hrecover
      exact ⟨checkpoint, records, recovered.identity, hrecorded⟩
  obtain ⟨⟨hcontiguous, hbound, hbase⟩, hindex, hraised, hcommits, hreach⟩ :=
    Record.replayAll_reach hstart hreplay
  have hlast : ∀ i, checkpoint.snapshotIndex.toNat < i →
      (i ≤ recovered.last ↔ survives checkpoint.snapshotIndex i records = true) := by
    intro i hi
    have hempty : ¬ i ≤ checkpoint.start.last := Nat.not_le.mpr hi
    exact (reachAll_iff hi hreach).trans (by simp [hempty])
  refine ⟨hcontiguous, hbase, hnames.1, hnames.2, fun happlies => ?_, ?_⟩
  · refine ⟨checkpoint, records, hnewest, hrecords, fun commit hcommit i hi hle => ?_⟩
    have hcommitted : commit ≤ recovered.commitIndex := by
      rcases hcommit with rfl | hmem
      · exact hraised
      · exact hcommits commit hmem
    exact (hlast i hi).mp
      (hle.trans ((UInt64.le_iff_toNat_le.mp hcommitted).trans happlies.commit_le))
  · rintro ⟨_, _, hnewest', hrecords', hheld⟩
    obtain rfl := Except.ok.inj (hnewest.symm.trans hnewest')
    obtain rfl := Except.ok.inj (hrecords.symm.trans hrecords')
    have hinside : ∀ commit, commit = checkpoint.commitIndex ∨ .commit commit ∈ records →
        commit.toNat ≤ recovered.last := by
      intro commit hcommit
      by_cases hi : checkpoint.snapshotIndex.toNat < commit.toNat
      · exact (hlast _ hi).mpr (hheld commit hcommit _ hi le_rfl)
      · have hsame : recovered.snapshotIndex = checkpoint.snapshotIndex := hindex
        rw [RecoveredState.last, hsame]
        omega
    have hle := Record.replayAll_commit_le hstart hreplay (hinside _ (.inl rfl))
      fun index hmem => hinside index (.inr hmem)
    exact ⟨hle, fun id peers start term core hstart hcommitted hcore =>
      recoverCommitted_reaches ⟨hcontiguous, hbound, hbase⟩ hstart hcommitted hle hcore⟩

def openedState (directory : List Segment) : Option RecoveredState :=
  (openWAL escapedCheckpoints directory sampleIdentity 1024).toOption.map Prod.snd

theorem openedState_ok {directory : List Segment} {recovered : RecoveredState}
    (h : openedState directory = some recovered) :
    ∃ w, openWAL escapedCheckpoints directory sampleIdentity 1024 = .ok (w, recovered) := by
  rw [openedState] at h
  cases hopen : openWAL escapedCheckpoints directory sampleIdentity 1024 with
  | error e => simp [hopen, Except.toOption] at h
  | ok opened =>
      obtain ⟨w, state⟩ := opened
      rw [hopen] at h
      cases h
      exact ⟨w, rfl⟩

def sampleDirectory (records : List Record) : List Segment :=
  [⟨1, writtenSegment escapedCheckpoints (.clusterIdentity sampleIdentity.clusterID ::
    .nodeIdentity sampleIdentity.nodeID :: records)⟩]

/-- Two entries of which the second is replaced, and both are committed. -/
def replacedRecords : List Record :=
  [.entry (sampleEntry 1 1), .entry (sampleEntry 2 1), .truncation 2, .entry (sampleEntry 2 2),
    .commit 2]

theorem recovered_usable_committed : ∃ w recovered,
    openWAL escapedCheckpoints (sampleDirectory replacedRecords) sampleIdentity 1024 =
      .ok (w, recovered) ∧ recovered.Applies ∧ recovered.commitIndex = 2 := by
  obtain ⟨w, hopen⟩ := openedState_ok (show openedState (sampleDirectory replacedRecords) = some
    { identity := sampleIdentity
      log := [sampleEntry 1 1, sampleEntry 2 2]
      commitIndex := 2 } by decide +kernel)
  refine ⟨w, _, hopen, (recovered_usable_iff hopen).2.2.2.2.mpr ?_, rfl⟩
  refine ⟨{}, .clusterIdentity sampleIdentity.clusterID ::
    .nodeIdentity sampleIdentity.nodeID :: replacedRecords, by decide +kernel, by decide +kernel,
    fun commit hcommit i hi hle => ?_⟩
  obtain rfl | rfl : commit = 0 ∨ commit = 2 := by simpa [replacedRecords] using hcommit
  · exact absurd hle (Nat.not_le.mpr hi)
  · obtain rfl | rfl : i = 1 ∨ i = 2 := by
      simp only [UInt64.reduceToNat] at hi hle
      omega
    all_goals decide

/-- A checkpoint at index one that counts five entries committed, without the entries. -/
def orphanedCheckpoint : Record := .checkpoint ⟨sampleIdentity, {}, 5, 1, 1, 0⟩

/-- Recovery returns commit index five over an empty log, and the core cannot apply it. -/
theorem recovered_commit_beyond_log : ∃ w recovered core,
    openWAL escapedCheckpoints (sampleDirectory [orphanedCheckpoint]) sampleIdentity 1024 =
      .ok (w, recovered) ∧
    recovered.snapshotIndex.toNat + recovered.log.length < recovered.commitIndex.toNat ∧
    recovered.core? [110] [] 1 1 = some core ∧
    (core.step .recoverCommitted).1.lastApplied < recovered.commitIndex.toNat := by
  obtain ⟨w, hopen⟩ := openedState_ok (show openedState (sampleDirectory
    [orphanedCheckpoint]) = some
      { identity := sampleIdentity
        commitIndex := 5
        snapshotIndex := 1
        snapshotTerm := 1 } by decide +kernel)
  exact ⟨w, _, _, hopen, by decide, rfl, by decide⟩

end QuorumKV.Wal
