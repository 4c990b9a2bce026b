import QuorumKV.Wal.Writer

/-!
# Replay above a Snapshot index

Replay starts at the newest checkpoint's Snapshot index and re-reads records
written long before it.  `Record.view` follows what such a replay keeps of the
log, at any Snapshot index: it is the part of `applyRecord` that depends on the
order of the records.  A view that exists determines the replay, up to one
error: a truncation the checkpoint's own commit index forbids.
-/

namespace QuorumKV.Wal

/-- The log above the Snapshot index, and the largest commit record seen. -/
structure LogView where
  log : List LogEntry := []
  committed : Nat := 0
  deriving DecidableEq, Repr

namespace Record

def view (s : UInt64) (v : LogView) : Record → Option LogView
  | .entry e =>
      if e.index ≤ s then some v
      else if e.index.toNat = s.toNat + v.log.length + 1 then
        some { v with log := v.log ++ [e] }
      else none
  | .truncation first =>
      if first ≤ s then some v
      else if v.committed < first.toNat ∧ first.toNat ≤ s.toNat + v.log.length + 1 ∧
          s.toNat + v.log.length + 1 < 2 ^ 64 then
        some { v with log := v.log.take (first.toNat - s.toNat - 1) }
      else none
  | .commit index =>
      if index.toNat ≤ s.toNat + v.log.length then
        some { v with committed := max v.committed index.toNat }
      else none
  | .checkpoint c =>
      if c.snapshotIndex ≤ s then
        if c.truncateFrom ≠ 0 ∧ c.snapshotIndex = s then some { v with log := [] }
        else some v
      else none
  | _ => some v

def viewAll (s : UInt64) (v : LogView) : List Record → Option LogView
  | [] => some v
  | record :: records => (record.view s v).bind fun v => viewAll s v records

theorem viewAll_append (s : UInt64) (v : LogView) (left right : List Record) :
    viewAll s v (left ++ right) = (viewAll s v left).bind fun v => viewAll s v right := by
  induction left generalizing v with
  | nil => rfl
  | cons record left ih =>
      simp only [List.cons_append, viewAll]
      cases record.view s v with
      | none => rfl
      | some v => exact ih v

theorem view_checkpoint_keep {s : UInt64} {c : CompactionCheckpoint} (v : LogView)
    (hle : c.snapshotIndex ≤ s) (hkeep : c.truncateFrom ≠ 0 → c.snapshotIndex ≠ s) :
    (Record.checkpoint c).view s v = some v := by
  rw [view, if_pos hle, if_neg fun h => hkeep h.1 h.2]

theorem view_checkpoint_cut {c : CompactionCheckpoint} (v : LogView)
    (hfrom : c.truncateFrom ≠ 0) :
    (Record.checkpoint c).view c.snapshotIndex v = some { v with log := [] } := by
  rw [view, if_pos UInt64.le_rfl, if_pos ⟨hfrom, rfl⟩]

def hardStep (hardState : HardState) : Record → HardState
  | .hardState h =>
      if h.term < hardState.term then hardState
      else if h.term = hardState.term ∧ hardState.votedFor ≠ [] then hardState
      else h
  | _ => hardState

def Of (identity : Identity) : Record → Prop
  | .clusterIdentity id => id = identity.clusterID
  | .nodeIdentity id => id = identity.nodeID
  | .checkpoint c => c.identity = identity
  | _ => True

end Record

/-! ## From views to replay -/

structure LogView.Matches (v : LogView) (identity : Identity) (s : UInt64) (c : Nat)
    (state : RecoveredState) : Prop where
  identity : state.identity = identity
  snapshotIndex : state.snapshotIndex = s
  log : state.log = v.log
  commitIndex : state.commitIndex.toNat = max c v.committed
  bound : s.toNat + v.log.length < 2 ^ 64
  above : ∀ e ∈ v.log, s < e.index

theorem LogView.Matches.lastIndex {v : LogView} {identity : Identity} {s : UInt64} {c : Nat}
    {state : RecoveredState} (h : v.Matches identity s c state) :
    state.lastIndex.toNat = s.toNat + v.log.length := by
  have hbound := h.bound
  rw [← h.snapshotIndex, ← h.log] at hbound ⊢
  exact RecoveredState.toNat_lastIndex hbound

section Replay

variable {identity : Identity} {s : UInt64} {c : Nat} {v v' : LogView}
  {state : RecoveredState} {record : Record}

def Forbidden (s : UInt64) (c : Nat) (record : Record) : Prop :=
  ∃ first, record = .truncation first ∧ s < first ∧ first.toNat ≤ c

private theorem replay_entry {e : LogEntry} (hmatch : v.Matches identity s c state)
    (hview : (Record.entry e).view s v = some v') :
    ∃ state', (Record.entry e).replay state = .ok state' ∧
      v'.Matches identity s c state' ∧ state'.hardState = state.hardState ∧
      state'.snapshotTerm = state.snapshotTerm := by
  simp only [Record.view] at hview
  simp only [Record.replay, RecoveredState.appendEntry, hmatch.snapshotIndex]
  split at hview
  · next hle =>
      rw [Option.some.injEq] at hview
      subst hview
      exact ⟨state, if_pos hle, hmatch, rfl, rfl⟩
  · next hgt =>
      split at hview
      · next hindex =>
          rw [Option.some.injEq] at hview
          subst hview
          have hlast := hmatch.lastIndex
          have hlt := e.index.toNat_lt
          have hnext : e.index = state.lastIndex + 1 := by
            apply UInt64.toNat_inj.mp
            rw [UInt64.toNat_add, hlast, hindex]
            simp only [UInt64.reduceToNat]
            omega
          rw [if_neg hgt, if_neg (not_not.mpr hnext)]
          refine ⟨_, rfl, ?_, rfl, rfl⟩
          refine ⟨hmatch.identity, rfl, ?_, hmatch.commitIndex, ?_, ?_⟩
          · simp [hmatch.log]
          · simp only [List.length_append, List.length_singleton]
            omega
          · intro other hother
            rcases List.mem_append.mp hother with hold | hnew
            · exact hmatch.above other hold
            · rw [List.mem_singleton.mp hnew]
              exact UInt64.not_le.mp hgt
      · simp at hview

private theorem replay_truncation {first : UInt64} (hmatch : v.Matches identity s c state)
    (hview : (Record.truncation first).view s v = some v') (hzero : first ≠ 0) :
    (∃ state', (Record.truncation first).replay state = .ok state' ∧
      v'.Matches identity s c state' ∧ state'.hardState = state.hardState ∧
      state'.snapshotTerm = state.snapshotTerm) ∨
    (Forbidden s c (.truncation first) ∧
      ∃ e, (Record.truncation first).replay state = .error e) := by
  simp only [Record.view] at hview
  simp only [Record.replay, RecoveredState.applyTruncation, hmatch.snapshotIndex,
    if_neg hzero]
  split at hview
  · next hle =>
      rw [Option.some.injEq] at hview
      subst hview
      exact .inl ⟨state, if_pos hle, hmatch, rfl, rfl⟩
  · next hgt =>
      split at hview
      · next hbounds =>
          rw [Option.some.injEq] at hview
          subst hview
          obtain ⟨hcommitted, hinside, hnowrap⟩ := hbounds
          have hlast := hmatch.lastIndex
          have hs : s.toNat < first.toNat := UInt64.lt_iff_toNat_lt.mp (UInt64.not_le.mp hgt)
          have hlast' : (state.lastIndex + 1).toNat = s.toNat + v.log.length + 1 := by
            rw [UInt64.toNat_add, hlast]
            simp only [UInt64.reduceToNat]
            omega
          have houtside : ¬ first > state.lastIndex + 1 := by
            simp only [gt_iff_lt, UInt64.lt_iff_toNat_lt, hlast']
            omega
          rw [if_neg hgt, if_neg houtside]
          by_cases hforbidden : first.toNat ≤ c
          · refine .inr ⟨⟨first, rfl, UInt64.not_le.mp hgt, hforbidden⟩, ?_⟩
            refine ⟨_, if_pos ?_⟩
            rw [UInt64.le_iff_toNat_le, hmatch.commitIndex]
            omega
          · have hcommit : ¬ first ≤ state.commitIndex := by
              rw [UInt64.le_iff_toNat_le, hmatch.commitIndex]
              omega
            rw [if_neg hcommit]
            have hcount : (first - s - 1).toNat = first.toNat - s.toNat - 1 := by
              have hfirst : (first - s).toNat = first.toNat - s.toNat :=
                UInt64.toNat_sub_of_le _ _ (UInt64.le_iff_toNat_le.mpr hs.le)
              rw [UInt64.toNat_sub_of_le, hfirst]
              · rfl
              · rw [UInt64.le_iff_toNat_le, hfirst]
                simp only [UInt64.reduceToNat]
                omega
            refine .inl ⟨_, rfl, ?_, rfl, rfl⟩
            refine ⟨hmatch.identity, rfl, ?_, hmatch.commitIndex, ?_, ?_⟩
            · simp only [hcount, hmatch.log]
            · have hbound := hmatch.bound
              simp only [List.length_take]
              omega
            · exact fun e he => hmatch.above e (List.mem_of_mem_take he)
      · simp at hview

private theorem replay_commit {index : UInt64} (hmatch : v.Matches identity s c state)
    (hview : (Record.commit index).view s v = some v') :
    ∃ state', (Record.commit index).replay state = .ok state' ∧
      v'.Matches identity s c state' ∧ state'.hardState = state.hardState ∧
      state'.snapshotTerm = state.snapshotTerm := by
  simp only [Record.view] at hview
  split at hview
  · next hinside =>
      rw [Option.some.injEq] at hview
      subst hview
      have hcommit := hmatch.commitIndex
      simp only [Record.replay, RecoveredState.applyCommitIndex]
      by_cases hlt : index < state.commitIndex
      · refine ⟨state, if_pos hlt, ⟨hmatch.identity, hmatch.snapshotIndex, hmatch.log, ?_,
          hmatch.bound, hmatch.above⟩, rfl, rfl⟩
        rw [UInt64.lt_iff_toNat_lt] at hlt
        simp only
        omega
      · have hbeyond : ¬ index > state.lastIndex := by
          simp only [gt_iff_lt, UInt64.lt_iff_toNat_lt, hmatch.lastIndex]
          omega
        rw [if_neg hlt, if_neg hbeyond]
        rw [UInt64.lt_iff_toNat_lt] at hlt
        refine ⟨_, rfl, ⟨hmatch.identity, hmatch.snapshotIndex, hmatch.log, ?_,
          hmatch.bound, hmatch.above⟩, rfl, rfl⟩
        simp only
        omega
  · simp at hview

private theorem replay_checkpoint {checkpoint : CompactionCheckpoint}
    (hmatch : v.Matches identity s c state)
    (hview : (Record.checkpoint checkpoint).view s v = some v')
    (hof : checkpoint.identity = identity)
    (hok : (Record.checkpoint checkpoint).CheckpointOK) :
    ∃ state', (Record.checkpoint checkpoint).replay state = .ok state' ∧
      v'.Matches identity s c state' ∧ state'.hardState = state.hardState ∧
      state'.snapshotTerm = state.snapshotTerm := by
  obtain ⟨-, -, -, -, -, htruncate⟩ := hok
  have hidentity : ¬ checkpoint.identity ≠ state.identity :=
    not_not.mpr (hof.trans hmatch.identity.symm)
  simp only [Record.view] at hview
  simp only [Record.replay, RecoveredState.applyCheckpoint, if_neg hidentity,
    hmatch.snapshotIndex]
  split at hview
  · next hle =>
      rw [if_neg (UInt64.not_lt.mpr hle)]
      split at hview
      · next hcut =>
          rw [Option.some.injEq] at hview
          subst hview
          obtain ⟨hfrom, hsame⟩ := hcut
          have hsucc : checkpoint.truncateFrom = s + 1 := by
            rw [← hsame]
            exact htruncate.resolve_left hfrom
          rw [if_pos hfrom, if_neg (by rw [hsucc, hsame]; simp), if_pos hsame]
          refine ⟨_, rfl, ?_, rfl, rfl⟩
          have hbound := hmatch.bound
          refine ⟨hmatch.identity, rfl, ?_, hmatch.commitIndex,
            by simp only [List.length_nil]; omega, by simp⟩
          -- Everything replayed so far lies above the Snapshot, so nothing stays.
          cases hlog : state.log with
          | nil => rfl
          | cons first rest =>
              have habove := hmatch.above first (by rw [← hmatch.log, hlog]; simp)
              have hnot : ¬ first.index < checkpoint.truncateFrom := by
                have hwrap : s.toNat + 1 < 2 ^ 64 := by
                  have := first.index.toNat_lt
                  rw [UInt64.lt_iff_toNat_lt] at habove
                  omega
                rw [hsucc, UInt64.lt_iff_toNat_lt, UInt64.toNat_add]
                rw [UInt64.lt_iff_toNat_lt] at habove
                simp only [UInt64.reduceToNat]
                omega
              simp [hnot]
      · next hkeep =>
          rw [Option.some.injEq] at hview
          subst hview
          refine ⟨state, ?_, hmatch, rfl, rfl⟩
          by_cases hfrom : checkpoint.truncateFrom = 0
          · simp [hfrom]
          · have hother : checkpoint.snapshotIndex ≠ s := fun h => hkeep ⟨hfrom, h⟩
            simp [hother, htruncate.resolve_left hfrom]
  · simp at hview

theorem Record.replay_view (hidentity : identity.clusterID ≠ [] ∧ identity.nodeID ≠ [])
    (hof : record.Of identity) (hok : record.CheckpointOK)
    (hzero : record ≠ .truncation 0) (hmatch : v.Matches identity s c state)
    (hview : record.view s v = some v') :
    (∃ state', record.replay state = .ok state' ∧ v'.Matches identity s c state' ∧
      state'.hardState = record.hardStep state.hardState ∧
      state'.snapshotTerm = state.snapshotTerm) ∨
    (Forbidden s c record ∧ ∃ e, record.replay state = .error e) := by
  have hid := hmatch.identity
  cases record with
  | clusterIdentity id =>
      cases hview
      refine .inl ⟨state, ?_, hmatch, rfl, rfl⟩
      have hsame : state.identity.clusterID = id := by rw [hid]; exact hof.symm
      simp [Record.replay, RecoveredState.applyClusterIdentity, ← hsame, hid, hidentity.1]
  | nodeIdentity id =>
      cases hview
      refine .inl ⟨state, ?_, hmatch, rfl, rfl⟩
      have hsame : state.identity.nodeID = id := by rw [hid]; exact hof.symm
      simp [Record.replay, RecoveredState.applyNodeIdentity, ← hsame, hid, hidentity.1,
        hidentity.2]
  | hardState h =>
      cases hview
      refine .inl ⟨state.applyHardState h, ?_, ?_, ?_, ?_⟩
      · simp [Record.replay, hid, hidentity.2]
      · have hfields : (state.applyHardState h).identity = state.identity ∧
            (state.applyHardState h).snapshotIndex = state.snapshotIndex ∧
            (state.applyHardState h).log = state.log ∧
            (state.applyHardState h).commitIndex = state.commitIndex := by
          simp only [RecoveredState.applyHardState]
          split
          · simp
          · split <;> simp
        obtain ⟨h1, h2, h3, h4⟩ := hfields
        exact ⟨h1.trans hid, h2.trans hmatch.snapshotIndex, h3.trans hmatch.log,
          by rw [h4]; exact hmatch.commitIndex, hmatch.bound, hmatch.above⟩
      · simp only [RecoveredState.applyHardState, Record.hardStep]
        split
        · rfl
        · split <;> rfl
      · simp only [RecoveredState.applyHardState]
        split
        · rfl
        · split <;> rfl
  | entry e => exact .inl (replay_entry hmatch hview)
  | truncation first => exact replay_truncation hmatch hview (by simpa using hzero)
  | commit index => exact .inl (replay_commit hmatch hview)
  | checkpoint checkpoint => exact .inl (replay_checkpoint hmatch hview hof hok)

theorem Record.replayAll_view {records : List Record}
    (hidentity : identity.clusterID ≠ [] ∧ identity.nodeID ≠ [])
    (hrecords : ∀ r ∈ records, r.Of identity ∧ r.CheckpointOK ∧ r ≠ .truncation 0)
    (hmatch : v.Matches identity s c state) (hview : Record.viewAll s v records = some v') :
    (∃ state', Record.replayAll state records = .ok state' ∧
      v'.Matches identity s c state' ∧
      state'.hardState = records.foldl Record.hardStep state.hardState ∧
      state'.snapshotTerm = state.snapshotTerm) ∨
    ((∃ r ∈ records, Forbidden s c r) ∧ ∃ e, Record.replayAll state records = .error e) := by
  induction records generalizing v state with
  | nil =>
      cases hview
      exact .inl ⟨state, rfl, hmatch, rfl, rfl⟩
  | cons record records ih =>
      simp only [Record.viewAll, Option.bind_eq_some_iff] at hview
      obtain ⟨middle, hfirst, hrest⟩ := hview
      obtain ⟨hof, hok, hzero⟩ := hrecords record (by simp)
      rcases Record.replay_view hidentity hof hok hzero hmatch hfirst with
        ⟨next, hnext, hnextMatch, hhard, hterm⟩ | ⟨hforbidden, e, he⟩
      · rcases ih (fun r hr => hrecords r (by simp [hr])) hnextMatch hrest with
          ⟨final, hfinal, hfinalMatch, hfinalHard, hfinalTerm⟩ | ⟨⟨r, hr, hforbidden⟩, e, he⟩
        · refine .inl ⟨final, ?_, hfinalMatch, ?_, hfinalTerm.trans hterm⟩
          · simpa only [Record.replayAll, hnext] using hfinal
          · rw [hfinalHard, hhard, List.foldl_cons]
        · exact .inr ⟨⟨r, by simp [hr], hforbidden⟩, e, by
            simpa only [Record.replayAll, hnext] using he⟩
      · exact .inr ⟨⟨record, by simp, hforbidden⟩, e, by simp only [Record.replayAll, he]⟩

end Replay

/-! ## Deleting covered segments -/

def LogView.Below (u v : LogView) : Prop := u.log = v.log ∧ u.committed ≤ v.committed

section Deletion

variable {s : UInt64} {u v w : LogView}

theorem Record.view_below {record : Record} (hbelow : u.Below v)
    (hview : record.view s v = some w) :
    ∃ w', record.view s u = some w' ∧ w'.Below w := by
  obtain ⟨hlog, hcommitted⟩ := hbelow
  cases record with
  | entry e =>
      simp only [Record.view, hlog] at hview ⊢
      split at hview
      · next hle =>
          cases hview
          exact ⟨u, if_pos hle, hlog, hcommitted⟩
      · next hgt =>
          split at hview
          · next hindex =>
              cases hview
              rw [if_neg hgt, if_pos hindex]
              exact ⟨_, rfl, rfl, hcommitted⟩
          · simp at hview
  | truncation first =>
      simp only [Record.view, hlog] at hview ⊢
      split at hview
      · next hle =>
          cases hview
          exact ⟨u, if_pos hle, hlog, hcommitted⟩
      · next hgt =>
          split at hview
          · next hbounds =>
              cases hview
              rw [if_neg hgt, if_pos ⟨lt_of_le_of_lt hcommitted hbounds.1, hbounds.2⟩]
              exact ⟨_, rfl, rfl, hcommitted⟩
          · simp at hview
  | commit index =>
      simp only [Record.view, hlog] at hview ⊢
      split at hview
      · next hinside =>
          cases hview
          exact ⟨_, if_pos hinside, rfl, max_le_max_right _ hcommitted⟩
      · simp at hview
  | checkpoint c =>
      simp only [Record.view] at hview ⊢
      split at hview
      · next hle =>
          rw [if_pos hle]
          split at hview
          · next hcut =>
              cases hview
              exact ⟨_, if_pos hcut, rfl, hcommitted⟩
          · next hkeep =>
              cases hview
              exact ⟨u, if_neg hkeep, hlog, hcommitted⟩
      · simp at hview
  | _ =>
      cases hview
      exact ⟨u, rfl, hlog, hcommitted⟩

theorem Record.viewAll_below {records : List Record} (hbelow : u.Below v)
    (hview : Record.viewAll s v records = some w) :
    ∃ w', Record.viewAll s u records = some w' ∧ w'.Below w := by
  induction records generalizing u v with
  | nil =>
      cases hview
      exact ⟨u, rfl, hbelow⟩
  | cons record records ih =>
      simp only [Record.viewAll, Option.bind_eq_some_iff] at hview ⊢
      obtain ⟨middle, hfirst, hrest⟩ := hview
      obtain ⟨middle', hfirst', hbelow'⟩ := Record.view_below hbelow hfirst
      obtain ⟨w', hrest', hw'⟩ := ih hbelow' hrest
      exact ⟨w', ⟨middle', hfirst', hrest'⟩, hw'⟩

def Paired (records : List Record) : Prop :=
  ∀ c, Record.checkpoint c ∈ records → c.truncateFrom ≠ 0 →
    c.truncateFrom = c.snapshotIndex + 1 ∧ Record.truncation c.truncateFrom ∈ records

theorem Record.view_covered {record : Record} {covered : UInt64}
    (hcovered : record.coveredBy covered) (hle : covered ≤ s)
    (hcheckpoint : ∀ c, record = .checkpoint c → c.truncateFrom ≠ 0 → c.snapshotIndex ≠ s)
    (hview : record.view s v = some w) : v.Below w := by
  cases record with
  | entry e =>
      have : e.index ≤ s := UInt64.le_trans (of_decide_eq_true hcovered) hle
      simp only [Record.view, if_pos this, Option.some.injEq] at hview
      exact ⟨by rw [hview], by rw [hview]⟩
  | truncation first =>
      have : first ≤ s := UInt64.le_trans (of_decide_eq_true hcovered) hle
      simp only [Record.view, if_pos this, Option.some.injEq] at hview
      exact ⟨by rw [hview], by rw [hview]⟩
  | commit index =>
      simp only [Record.view] at hview
      split at hview
      · cases hview
        exact ⟨rfl, le_max_left _ _⟩
      · simp at hview
  | checkpoint c =>
      have hkeep : ¬ (c.truncateFrom ≠ 0 ∧ c.snapshotIndex = s) :=
        fun h => hcheckpoint c rfl h.1 h.2
      simp only [Record.view, if_neg hkeep] at hview
      split at hview
      · cases hview
        exact ⟨rfl, le_rfl⟩
      · simp at hview
  | _ =>
      cases hview
      exact ⟨rfl, le_rfl⟩

theorem Record.viewAll_covered {records : List Record} {covered : UInt64}
    (hcovered : ∀ r ∈ records, r.coveredBy covered) (hle : covered ≤ s)
    (hcheckpoint : ∀ c, .checkpoint c ∈ records → c.truncateFrom ≠ 0 → c.snapshotIndex ≠ s)
    (hview : Record.viewAll s v records = some w) : v.Below w := by
  induction records generalizing v with
  | nil =>
      cases hview
      exact ⟨rfl, le_rfl⟩
  | cons record records ih =>
      simp only [Record.viewAll, Option.bind_eq_some_iff] at hview
      obtain ⟨middle, hfirst, hrest⟩ := hview
      have hone := Record.view_covered (hcovered record (by simp)) hle
        (fun c hc => hcheckpoint c (by simp [hc])) hfirst
      have hothers := ih (fun r hr => hcovered r (by simp [hr]))
        (fun c hc => hcheckpoint c (by simp [hc])) hrest
      exact ⟨hone.1.trans hothers.1, hone.2.trans hothers.2⟩

theorem Paired.snapshotIndex_lt {records : List Record} {covered : UInt64}
    (hpaired : Paired records) (hcovered : ∀ r ∈ records, r.coveredBy covered)
    {c : CompactionCheckpoint} (hmem : .checkpoint c ∈ records) (hfrom : c.truncateFrom ≠ 0) :
    c.snapshotIndex < covered := by
  obtain ⟨hsucc, htruncation⟩ := hpaired c hmem hfrom
  have hle : c.truncateFrom ≤ covered := of_decide_eq_true (hcovered _ htruncation)
  have hpositive : c.truncateFrom.toNat ≠ 0 := fun h => hfrom (UInt64.toNat_inj.mp h)
  rw [hsucc] at hle hpositive
  rw [UInt64.le_iff_toNat_le, UInt64.toNat_add] at hle
  rw [UInt64.toNat_add] at hpositive
  rw [UInt64.lt_iff_toNat_lt]
  have := c.snapshotIndex.toNat_lt
  simp only [UInt64.reduceToNat] at hle hpositive
  omega

def uncovered (covered : UInt64) (blocks : List Block) : List Block :=
  blocks.filter fun block => !block.records.all (Record.coveredBy covered)

theorem Record.viewAll_uncovered {blocks : List Block} {tail : List Record}
    {covered : UInt64} (hpaired : ∀ block ∈ blocks, Paired block.records)
    (hle : covered ≤ s) (hbelow : u.Below v)
    (hview : Record.viewAll s v (blockRecords blocks ++ tail) = some w) :
    ∃ w', Record.viewAll s u (blockRecords (uncovered covered blocks) ++ tail) = some w' ∧
      w'.Below w := by
  induction blocks generalizing u v with
  | nil => exact Record.viewAll_below hbelow hview
  | cons block blocks ih =>
      simp only [blockRecords, List.flatMap_cons, List.append_assoc,
        Record.viewAll_append s v block.records, Option.bind_eq_some_iff] at hview
      obtain ⟨middle, hfirst, hrest⟩ := hview
      have hothers := fun b hb => hpaired b (List.mem_cons_of_mem block hb)
      simp only [uncovered, List.filter_cons]
      cases hall : block.records.all (Record.coveredBy covered) with
      | true =>
          have hcovered := List.all_eq_true.mp hall
          have hsame := Record.viewAll_covered hcovered hle
            (fun c hc hfrom heq => absurd
              ((hpaired block (by simp)).snapshotIndex_lt hcovered hc hfrom)
              (UInt64.not_lt.mpr (heq ▸ hle))) hfirst
          exact ih hothers ⟨hbelow.1.trans hsame.1, hbelow.2.trans hsame.2⟩ hrest
      | false =>
          obtain ⟨middle', hfirst', hbelow'⟩ := Record.viewAll_below hbelow hfirst
          obtain ⟨w', hrest', hw'⟩ := ih hothers hbelow' hrest
          refine ⟨w', ?_, hw'⟩
          simp only [Bool.not_false, if_true, blockRecords, List.flatMap_cons,
            List.append_assoc, Record.viewAll_append s u block.records,
            Option.bind_eq_some_iff]
          exact ⟨middle', hfirst', hrest'⟩

end Deletion

end QuorumKV.Wal
