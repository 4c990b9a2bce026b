import QuorumKV.Raft.Merge

/-!
# Positions in order

A core whose log counts on from its base, with what is applied and what is committed
between the base and the last position.  Every operation of the core on its log keeps
it so, and then no expression of the core indexes its log out of range.
-/

namespace QuorumKV.Raft.Node

open Foundation

variable {n m : Node}

/-! ## Operations on a contiguous log -/

theorem Contiguous.of_ledger (h : n.Contiguous) (hledger : m.ledger = n.ledger) :
    m.Contiguous := by
  obtain ⟨log, hnumbered, hholds⟩ := h.holds
  exact (hholds.of_ledger hledger).contiguous hnumbered

theorem Contiguous.appendEntries (h : n.Contiguous) {entries : List LogEntry}
    (hne : entries ≠ []) (hindex : ∀ offset entry, entries[offset]? = some entry →
      entry.index = n.lastLogIndex + offset + 1) :
    (n.appendEntries entries).Contiguous ∧
      (n.appendEntries entries).lastLogIndex = n.lastLogIndex + entries.length := by
  obtain ⟨log, hnumbered, hholds⟩ := h.holds
  have hnumbered' : Numbered (log ++ entries) := by
    refine hnumbered.append fun offset entry hentry => ?_
    rw [← hholds.lastIndex]
    exact hindex offset entry hentry
  have hholds' := hholds.appendEntries hne hnumbered'
  refine ⟨hholds'.contiguous hnumbered', ?_⟩
  rw [hholds'.lastIndex, List.length_append, hholds.lastIndex]

theorem Contiguous.truncateLog (h : n.Contiguous) {first : Nat} (hbase : n.logBaseIndex < first)
    (hfirst : first ≤ n.lastLogIndex + 1) : (n.truncateLog first).Contiguous := by
  obtain ⟨log, hnumbered, hholds⟩ := h.holds
  rw [hholds.lastIndex] at hfirst
  exact (hholds.truncateLog hbase hfirst).contiguous (hnumbered.front (List.take_prefix _ _))

theorem Contiguous.compactLog (h : n.Contiguous) (happlied : n.lastApplied ≤ n.lastLogIndex)
    (index term : Nat) : (n.compactLog index term).Contiguous := by
  obtain ⟨log, hnumbered, hholds⟩ := h.holds
  rw [hholds.lastIndex] at happlied
  exact (hholds.compactLog happlied index term).contiguous hnumbered

theorem Contiguous.installSnapshot_retained (h : n.Contiguous) {request : InstallSnapshot}
    (hbase : n.logBaseIndex ≤ request.snapshotIndex)
    (hlast : request.snapshotIndex ≤ n.lastLogIndex)
    (hterm : n.termAt request.snapshotIndex = request.snapshotTerm) :
    (n.installSnapshot request true).Contiguous ∧
      (n.installSnapshot request true).lastLogIndex = n.lastLogIndex ∧
      (n.installSnapshot request true).log =
        n.log.drop (request.snapshotIndex - n.logBaseIndex) := by
  obtain ⟨log, hnumbered, hholds⟩ := h.holds
  rw [hholds.lastIndex] at hlast
  have hholds' := hholds.installSnapshot_retained hnumbered hbase hlast
    (hterm.symm.trans (hholds.termAt_eq hbase))
  have hbase' : (n.installSnapshot request true).logBaseIndex = request.snapshotIndex := by
    unfold Node.installSnapshot
    dsimp only
    split <;> rfl
  refine ⟨hholds'.contiguous hnumbered, hholds'.lastIndex.trans hholds.lastIndex.symm, ?_⟩
  rw [hholds'.log_eq, hbase', hholds.log_eq, List.drop_drop, Nat.add_sub_cancel' hbase]

theorem Contiguous.installSnapshot_discarded (n : Node) {request : InstallSnapshot}
    (hpos : 0 < request.snapshotIndex) : (n.installSnapshot request false).Contiguous := by
  have hlength : request.snapshotIndex =
      (logOf (List.replicate request.snapshotIndex request.snapshotTerm)).length := by
    rw [logOf_length, List.length_replicate]
  refine (Holds.installSnapshot_discarded n hlength ?_).contiguous (logOf_numbered _)
  obtain ⟨last, hlast⟩ := Nat.exists_eq_succ_of_ne_zero hpos.ne'
  rw [Foundation.lastTerm, ← hlength, hlast, Nat.succ_eq_add_one, termAt_logOf]
  simp

theorem Contiguous.entry_some (h : n.Contiguous) {index : Nat} (hbase : n.logBaseIndex < index)
    (hlast : index ≤ n.lastLogIndex) : ∃ entry,
      n.log[index - n.logBaseIndex - 1]? = some entry ∧ entry.index = index := by
  have hlength := h.lastIndex
  have hlt : index - n.logBaseIndex - 1 < n.log.length := by omega
  refine ⟨n.log[index - n.logBaseIndex - 1], List.getElem?_eq_getElem hlt, ?_⟩
  have hindex := h.numbered _ _ (List.getElem?_eq_getElem hlt)
  omega

theorem entriesToAppend_some {prevIndex truncateFrom : Nat} {entries newEntries : List LogEntry}
    (h : n.entriesToAppend prevIndex entries = some (newEntries, truncateFrom)) :
    (newEntries = [] ∧ truncateFrom = 0) ∨
      (newEntries ≠ [] ∧ (truncateFrom = 0 ∨
        n.commitIndex < truncateFrom ∧ truncateFrom ≤ n.lastLogIndex)) := by
  unfold entriesToAppend at h
  generalize prevIndex + 1 = want at h
  induction entries generalizing want with
  | nil =>
      obtain ⟨rfl, rfl⟩ := Prod.mk.inj (Option.some.inj h)
      exact .inl ⟨rfl, rfl⟩
  | cons entry rest ih =>
      unfold entriesFrom at h
      split at h
      · simp at h
      split at h
      next hinside =>
        split at h
        · split at h
          · simp at h
          next huncommitted =>
            obtain ⟨rfl, rfl⟩ := Prod.mk.inj (Option.some.inj h)
            exact .inr ⟨by simp, .inr ⟨Nat.lt_of_not_le huncommitted, hinside⟩⟩
        · exact ih _ h
      · split at h
        · simp at h
        · obtain ⟨rfl, rfl⟩ := Prod.mk.inj (Option.some.inj h)
          exact .inr ⟨by simp, .inl rfl⟩

/-! ## Order -/

structure Ordered (n : Node) : Prop where
  contiguous : n.Contiguous
  base_le : n.logBaseIndex ≤ n.lastApplied
  applied_le : n.lastApplied ≤ n.commitIndex
  commit_le : n.commitIndex ≤ n.lastLogIndex

/--
The expressions of the core that index its log are in range, each under the condition
the core tests before it evaluates the expression.
-/
structure InRange (n : Node) : Prop where
  /-- `termAt`, and the loop of `entriesBatch`. -/
  entry : ∀ index, n.logBaseIndex < index → index ≤ n.lastLogIndex →
    index - n.logBaseIndex - 1 < n.log.length
  /-- The slice of `entriesBatch`. -/
  batch : ∀ first last, n.logBaseIndex < first → first ≤ last → last ≤ n.lastLogIndex →
    first - n.logBaseIndex - 1 ≤ last - n.logBaseIndex ∧ last - n.logBaseIndex ≤ n.log.length
  /-- The slice of `compactLog`. -/
  compact : ∀ index, n.logBaseIndex < index → index ≤ n.lastApplied →
    index - n.logBaseIndex ≤ n.log.length
  /-- The slice of `truncateLog`, and its `termAt` on the cut log. -/
  truncate : ∀ prevIndex entries newEntries truncateFrom,
    n.entriesToAppend prevIndex entries = some (newEntries, truncateFrom) → truncateFrom ≠ 0 →
    n.logBaseIndex < truncateFrom ∧ truncateFrom - n.logBaseIndex - 1 ≤ n.log.length
  /-- The loop of `applyThrough`, for the indexes it is called with. -/
  apply : ∀ index, n.lastApplied < index →
    (index ≤ n.durableCommitIndex ∨
      ∃ id pending, n.pendingCommit id = some pending ∧ index ≤ pending.commitIndex) →
    n.logBaseIndex < index ∧ index - n.logBaseIndex - 1 < n.log.length

theorem Ordered.inRange (h : n.Ordered) (hdurable : n.durableCommitIndex ≤ n.commitIndex)
    (hpending : ∀ id pending, n.pendingCommit id = some pending →
      pending.commitIndex ≤ n.commitIndex) : n.InRange := by
  have hlast := h.contiguous.lastIndex
  have hbase := h.base_le
  have happlied := h.applied_le
  have hcommit := h.commit_le
  refine ⟨fun index hlt hle => by omega, fun first last hlt hle hbound => ⟨by omega, by omega⟩,
    fun index hlt hle => by omega, fun prevIndex entries newEntries truncateFrom hscan hcut => ?_,
    fun index hlt hbound => ?_⟩
  · rcases entriesToAppend_some hscan with ⟨-, hzero⟩ | ⟨-, hzero | ⟨hlower, hupper⟩⟩
    · exact absurd hzero hcut
    · exact absurd hzero hcut
    · exact ⟨by omega, by omega⟩
  · have hle : index ≤ n.commitIndex := by
      rcases hbound with hle | ⟨id, pending, hsome, hle⟩
      · exact hle.trans hdurable
      · exact hle.trans (hpending id pending hsome)
    exact ⟨by omega, by omega⟩

/-! ## Applying -/

theorem applyLoop_lastApplied (count : Nat) (h : n.Contiguous)
    (hbase : n.logBaseIndex ≤ n.lastApplied) (hle : n.lastApplied + count ≤ n.lastLogIndex) :
    (n.applyLoop count).1.lastApplied = n.lastApplied + count := by
  induction count generalizing n with
  | zero => rfl
  | succ count ih =>
      obtain ⟨entry, hentry, -⟩ := h.entry_some (Nat.lt_succ_of_le hbase) (by omega)
      unfold applyLoop
      simp only [hentry]
      have hnext := ih (n := { n with
        lastApplied := n.lastApplied + 1
        readReady := n.readReady || decide (n.role = .leader ∧ n.readReady = false ∧
          entry.type = .noOp ∧ entry.term = n.term) })
        ⟨h.numbered, h.lastIndex, h.lastTerm, h.start⟩ (hbase.trans (Nat.le_succ _))
        (by simp only; omega)
      rw [hnext]
      simp only
      omega

theorem applyThrough_lastApplied (h : n.Contiguous) (hbase : n.logBaseIndex ≤ n.lastApplied)
    {index : Nat} (hle : index ≤ n.lastLogIndex) :
    (n.applyThrough index).1.lastApplied = max n.lastApplied index := by
  unfold applyThrough
  split
  next hdone =>
    rw [max_eq_left hdone]
    rfl
  next hlater =>
    rw [max_eq_right (by omega)]
    exact (applyLoop_lastApplied _ h hbase (by omega)).trans (by omega)

end QuorumKV.Raft.Node
