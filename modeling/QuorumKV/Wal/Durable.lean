import QuorumKV.Wal.Accepted

/-!
# The records of a history

Which lists of records represent a history.  Appending a call's records keeps
the representation, and so does deleting the segments a new checkpoint covers.
-/

namespace QuorumKV.Wal

open Foundation
open QuorumKV.Raft (Bytes)

/-! ## Records of a history -/

def newestOf (records : List Record) : CompactionCheckpoint :=
  records.foldl Record.newest {}

/-- The records represent the history up to its hard state. -/
structure RecordsFor (t : Trace) (records : List Record) : Prop where
  valid : ∀ r ∈ records, r.Of t.live.identity ∧ r.CheckpointOK ∧ r ≠ .truncation 0
  viewed : t.Viewed records
  cuts : ∀ first, .truncation first ∈ records → ∃ cut ∈ t.cuts, cut.first = first
  snapshotIndex : (newestOf records).snapshotIndex = t.live.snapshotIndex
  snapshotTerm : (newestOf records).snapshotTerm = t.live.snapshotTerm
  commitIndex : (newestOf records).commitIndex = t.checkpointCommit
  named : (newestOf records).identity = t.live.identity ∨
    (newestOf records = {} ∧ ∃ rest, records =
      .clusterIdentity t.live.identity.clusterID ::
        .nodeIdentity t.live.identity.nodeID :: rest)

structure HardFor (t : Trace) (records : List Record) : Prop where
  replayed : records.foldl Record.hardStep (newestOf records).hardState = t.live.hardState
  below : ∀ h, .hardState h ∈ records → HardState.Follows h t.live.hardState

theorem HardState.Follows.refl (h : HardState) : HardState.Follows h h := .inr ⟨rfl, .inr rfl⟩

theorem HardState.Follows.trans {a b c : HardState} (hab : HardState.Follows a b)
    (hbc : HardState.Follows b c) : HardState.Follows a c := by
  rcases hab with hab | ⟨hterm, hvote⟩
  · rcases hbc with hbc | ⟨hterm', -⟩
    · exact .inl (UInt64.lt_trans hab hbc)
    · exact .inl (hterm' ▸ hab)
  · rcases hbc with hbc | ⟨hterm', hvote'⟩
    · exact .inl (hterm.symm ▸ hbc)
    · refine .inr ⟨hterm.trans hterm', ?_⟩
      rcases hvote with hvote | hvote
      · exact .inl hvote
      · rwa [hvote]

theorem Record.hardStep_below {h hard : HardState} (hfollows : HardState.Follows h hard) :
    Record.hardStep hard (.hardState h) = hard := by
  simp only [Record.hardStep]
  rcases hfollows with hlt | ⟨hterm, hvote⟩
  · rw [if_pos hlt]
  · rw [if_neg (by rw [hterm]; exact UInt64.lt_irrefl _)]
    split
    · rfl
    · next hempty =>
        have hnone : hard.votedFor = [] := by
          by_contra hsome
          exact hempty ⟨hterm, hsome⟩
        have hvotes : h.votedFor = hard.votedFor := by
          rcases hvote with hvote | hvote
          · rw [hvote, hnone]
          · exact hvote
        cases h
        cases hard
        simp_all

theorem Record.hardStep_follows {h hard : HardState} (hfollows : HardState.Follows hard h) :
    Record.hardStep hard (.hardState h) = h := by
  simp only [Record.hardStep]
  rcases hfollows with hlt | ⟨hterm, hvote⟩
  · rw [if_neg (UInt64.not_lt.mpr (UInt64.le_of_lt hlt)), if_neg]
    rintro ⟨hterm, -⟩
    rw [hterm] at hlt
    exact UInt64.lt_irrefl _ hlt
  · rw [if_neg (by rw [hterm]; exact UInt64.lt_irrefl _)]
    split
    · next hcast =>
        have hvotes := hvote.resolve_left hcast.2
        cases h
        cases hard
        simp_all
    · rfl

theorem foldl_hardStep_below {records : List Record} {hard : HardState}
    (hbelow : ∀ h, .hardState h ∈ records → HardState.Follows h hard) :
    records.foldl Record.hardStep hard = hard := by
  induction records with
  | nil => rfl
  | cons record records ih =>
      have hfirst : Record.hardStep hard record = hard := by
        cases record with
        | hardState h => exact Record.hardStep_below (hbelow h (by simp))
        | _ => rfl
      rw [List.foldl_cons, hfirst]
      exact ih fun h hh => hbelow h (by simp [hh])

def Record.Plain (record : Record) : Prop := ∀ c, record ≠ .checkpoint c

theorem newestOf_append_plain {records others : List Record} (h : ∀ r ∈ others, r.Plain) :
    newestOf (records ++ others) = newestOf records := by
  simp only [newestOf, List.foldl_append]
  induction others generalizing records with
  | nil => rfl
  | cons record others ih =>
      have hfirst : ∀ found, Record.newest found record = found := by
        intro found
        cases record with
        | checkpoint c => exact absurd rfl (h (.checkpoint c) (by simp) c)
        | _ => rfl
      rw [List.foldl_cons, hfirst]
      exact ih fun r hr => h r (by simp [hr])

theorem newestOf_append_checkpoint (records others : List Record) (c : CompactionCheckpoint)
    (h : ∀ r ∈ others, r.Plain) : newestOf (records ++ .checkpoint c :: others) = c := by
  have hsplit : records ++ .checkpoint c :: others = (records ++ [.checkpoint c]) ++ others := by
    simp
  rw [hsplit, newestOf_append_plain h]
  simp [newestOf, Record.newest]

section Append

variable {t : Trace} {records : List Record} {operation : Operation} {hardState : HardState}

theorem Trace.perform_identity (t : Trace) (operation : Operation) :
    (t.perform operation).live.identity = t.live.identity := by
  cases operation <;> rfl

theorem Trace.recordsOf_cases (t : Trace) (hardState : HardState) (operation : Operation) :
    ((∀ r ∈ t.recordsOf hardState operation, r.Plain) ∧
      (t.perform operation).live.snapshotIndex = t.live.snapshotIndex ∧
      (t.perform operation).live.snapshotTerm = t.live.snapshotTerm ∧
      (t.perform operation).checkpointCommit = t.checkpointCommit) ∨
    (∃ c others, t.recordsOf hardState operation = .checkpoint c :: others ∧
      (∀ r ∈ others, r.Plain) ∧ c.identity = t.live.identity ∧ c.hardState = hardState ∧
      c.snapshotIndex = (t.perform operation).live.snapshotIndex ∧
      c.snapshotTerm = (t.perform operation).live.snapshotTerm ∧
      c.commitIndex = (t.perform operation).checkpointCommit) := by
  cases operation with
  | compact index term =>
      exact .inr ⟨_, [], rfl, by simp, rfl, rfl, rfl, rfl, rfl⟩
  | installSnapshot index term retain =>
      right
      simp only [recordsOf]
      split
      · exact ⟨_, _, rfl, by simp [Record.Plain], rfl, rfl, rfl, rfl, rfl⟩
      · exact ⟨_, [], rfl, by simp, rfl, rfl, rfl, rfl, rfl⟩
  | saveCommitIndex index =>
      left
      simp only [recordsOf]
      split <;> simp [Record.Plain, perform, RecoveredState.perform]
  | _ => exact .inl ⟨by simp [recordsOf, Record.Plain], rfl, rfl, rfl⟩

theorem Trace.recordsOf_valid (hardState : HardState)
    (hnamed : blank t.live.identity.clusterID = false ∧ blank t.live.identity.nodeID = false)
    (haccepts : t.Accepts operation) (hregular : t.Regular operation) :
    ∀ r ∈ t.recordsOf hardState operation,
      r.Of t.live.identity ∧ r.CheckpointOK ∧ r ≠ .truncation 0 := by
  cases operation with
  | saveHardState state => simp [recordsOf, Record.Of, Record.CheckpointOK]
  | saveLogEntries entries =>
      simp only [recordsOf, List.mem_map]
      rintro r ⟨e, -, rfl⟩
      simp [Record.Of, Record.CheckpointOK]
  | truncateLog first =>
      simp only [recordsOf, List.mem_singleton]
      rintro r rfl
      refine ⟨trivial, trivial, ?_⟩
      intro hzero
      cases hzero
      exact absurd haccepts.1 (Nat.not_lt_zero _)
  | saveCommitIndex index =>
      simp only [recordsOf]
      split <;> simp [Record.Of, Record.CheckpointOK]
  | compact index term =>
      simp only [recordsOf, List.mem_singleton]
      rintro r rfl
      exact ⟨rfl, ⟨hnamed.1, hnamed.2, haccepts.2.2, hregular.2,
        UInt64.le_iff_toNat_le.mpr haccepts.2.1, .inl rfl⟩, by simp⟩
  | installSnapshot index term retain =>
      have hbelow : index ≤ max t.live.commitIndex index := by
        rw [UInt64.le_iff_toNat_le, UInt64.toNat_max]
        omega
      simp only [recordsOf]
      split
      · next hcut =>
          have hnonzero : index + 1 ≠ 0 := by
            intro hzero
            have hlt := UInt64.lt_iff_toNat_lt.mp hcut.2
            have hbound := t.live.lastIndex.toNat_lt
            have := congrArg UInt64.toNat hzero
            rw [UInt64.toNat_add] at this
            simp only [UInt64.reduceToNat] at this
            omega
          intro r hr
          simp only [List.mem_cons, List.not_mem_nil, or_false] at hr
          rcases hr with rfl | rfl
          · exact ⟨rfl, ⟨hnamed.1, hnamed.2, haccepts.2.2, hregular.2, hbelow, .inr rfl⟩,
              by simp⟩
          · exact ⟨trivial, trivial, by simpa using hnonzero⟩
      · intro r hr
        rw [List.mem_singleton.mp hr]
        exact ⟨rfl, ⟨hnamed.1, hnamed.2, haccepts.2.2, hregular.2, hbelow, .inl rfl⟩, by simp⟩
  | reopen size => simp [recordsOf]

theorem Trace.recordsOf_cuts (first : UInt64)
    (h : .truncation first ∈ t.recordsOf hardState operation) :
    ∃ cut ∈ t.cut operation, cut.first = first := by
  cases operation with
  | truncateLog other =>
      simp only [recordsOf, List.mem_singleton, Record.truncation.injEq] at h
      exact ⟨⟨other, t.live.lastIndex, 0⟩, by simp [Trace.cut], h.symm⟩
  | installSnapshot index term retain =>
      simp only [recordsOf] at h
      split at h
      · next hcut =>
          simp only [List.mem_cons, reduceCtorEq, Record.truncation.injEq, List.not_mem_nil,
            or_false, false_or] at h
          exact ⟨⟨index + 1, t.live.lastIndex, 0⟩, by simp [Trace.cut, hcut], h.symm⟩
      · simp at h
  | saveCommitIndex index =>
      simp only [recordsOf] at h
      split at h <;> simp at h
  | _ => simp [recordsOf] at h

theorem RecordsFor.perform (hardState : HardState) (hrecords : RecordsFor t records)
    (hwf : t.WellFormed)
    (hnamed : blank t.live.identity.clusterID = false ∧ blank t.live.identity.nodeID = false)
    (haccepts : t.Accepts operation) (hregular : t.Regular operation) :
    RecordsFor (t.perform operation) (records ++ t.recordsOf hardState operation) := by
  have hvalid := Trace.recordsOf_valid hardState hnamed haccepts hregular
  have hidentity := t.perform_identity operation
  refine ⟨?_, Trace.viewed_perform hwf hrecords.viewed haccepts hardState, ?_, ?_, ?_, ?_, ?_⟩
  · intro r hr
    rw [hidentity]
    rcases List.mem_append.mp hr with hold | hnew
    · exact hrecords.valid r hold
    · exact hvalid r hnew
  · intro first hfirst
    rcases List.mem_append.mp hfirst with hold | hnew
    · obtain ⟨cut, hcut, heq⟩ := hrecords.cuts first hold
      exact ⟨_, List.mem_map_of_mem (List.mem_append_left _ hcut), heq⟩
    · obtain ⟨cut, hcut, heq⟩ := Trace.recordsOf_cuts first hnew
      exact ⟨_, List.mem_map_of_mem (List.mem_append_right _ hcut), heq⟩
  all_goals
    rcases t.recordsOf_cases hardState operation with
      ⟨hplain, hindex, hterm, hcommit⟩ |
      ⟨c, others, hlist, hplain, hname, -, hindex, hterm, hcommit⟩
  · rw [newestOf_append_plain hplain, hindex, hrecords.snapshotIndex]
  · rw [hlist, newestOf_append_checkpoint _ _ _ hplain, hindex]
  · rw [newestOf_append_plain hplain, hterm, hrecords.snapshotTerm]
  · rw [hlist, newestOf_append_checkpoint _ _ _ hplain, hterm]
  · rw [newestOf_append_plain hplain, hcommit, hrecords.commitIndex]
  · rw [hlist, newestOf_append_checkpoint _ _ _ hplain, hcommit]
  · rw [newestOf_append_plain hplain, hidentity]
    rcases hrecords.named with hnamed | ⟨hnone, rest, hrest⟩
    · exact .inl hnamed
    · exact .inr ⟨hnone, rest ++ t.recordsOf hardState operation, by rw [hrest]; rfl⟩
  · rw [hlist, newestOf_append_checkpoint _ _ _ hplain, hidentity]
    exact .inl hname

theorem Trace.recordsOf_hard (t : Trace) (hardState : HardState) (operation : Operation) :
    (∃ state, operation = .saveHardState state) ∨
      ((∀ h, .hardState h ∉ t.recordsOf hardState operation) ∧
        (t.perform operation).live.hardState = t.live.hardState) := by
  cases operation with
  | saveHardState state => exact .inl ⟨state, rfl⟩
  | saveCommitIndex _ | installSnapshot _ _ _ =>
      refine .inr ⟨?_, rfl⟩
      intro h
      simp only [recordsOf]
      split <;> simp
  | _ => exact .inr ⟨by simp [recordsOf], rfl⟩

theorem HardFor.perform (hhard : HardFor t records) (hmonotone : t.Monotone operation)
    (hheld : hardState = t.live.hardState) :
    HardFor (t.perform operation) (records ++ t.recordsOf hardState operation) := by
  rcases t.recordsOf_hard hardState operation with ⟨state, rfl⟩ | ⟨hnone, hsame⟩
  · have hplain : ∀ r ∈ t.recordsOf hardState (.saveHardState state), r.Plain := by
      simp [Trace.recordsOf, Record.Plain]
    constructor
    · rw [newestOf_append_plain hplain, List.foldl_append, hhard.replayed]
      exact Record.hardStep_follows hmonotone
    · intro h hh
      rcases List.mem_append.mp hh with hold | hnew
      · exact (hhard.below h hold).trans hmonotone
      · simp only [Trace.recordsOf, List.mem_singleton, Record.hardState.injEq] at hnew
        rw [hnew]
        exact HardState.Follows.refl state
  · have hbelow : ∀ h, .hardState h ∈ records ++ t.recordsOf hardState operation →
        HardState.Follows h t.live.hardState := by
      intro h hh
      rcases List.mem_append.mp hh with hold | hnew
      · exact hhard.below h hold
      · exact absurd hnew (hnone h)
    refine ⟨?_, by rwa [hsame]⟩
    rw [hsame]
    rcases t.recordsOf_cases hardState operation with
      ⟨hplain, -⟩ | ⟨c, others, hlist, hplain, -, hcheckpoint, -⟩
    · rw [newestOf_append_plain hplain, List.foldl_append, hhard.replayed]
      exact foldl_hardStep_below fun h hh => hbelow h (by simp [hh])
    · have hnewest := newestOf_append_checkpoint records others c hplain
      rw [hlist] at hbelow ⊢
      rw [hnewest, hcheckpoint, hheld]
      exact foldl_hardStep_below hbelow

/-! ## Deleting covered segments -/

theorem uncovered_subset {blocks : List Block} {covered : UInt64} {record : Record}
    (h : record ∈ blockRecords (uncovered covered blocks)) : record ∈ blockRecords blocks := by
  obtain ⟨block, hblock, hrecord⟩ := List.mem_flatMap.mp h
  exact List.mem_flatMap.mpr ⟨block, (List.mem_filter.mp hblock).1, hrecord⟩

theorem mem_uncovered_append {blocks : List Block} {covered : UInt64} {others : List Record}
    {record : Record} (h : record ∈ blockRecords (uncovered covered blocks) ++ others) :
    record ∈ blockRecords blocks ++ others := by
  rcases List.mem_append.mp h with hold | hnew
  · exact List.mem_append.mpr (.inl (uncovered_subset hold))
  · exact List.mem_append.mpr (.inr hnew)

theorem RecordsFor.delete {blocks : List Block} {front others : List Record}
    {c : CompactionCheckpoint} (hplain : ∀ r ∈ others, r.Plain)
    (hcheckpoint : t.checkpointCommit = t.live.commitIndex)
    (hpaired : ∀ block ∈ blocks, Paired block.records)
    (hrecords : RecordsFor t (blockRecords blocks ++ (front ++ .checkpoint c :: others))) :
    RecordsFor t (blockRecords (uncovered t.live.snapshotIndex blocks) ++
      (front ++ .checkpoint c :: others)) := by
  have hnewest : ∀ rs : List Record, newestOf (rs ++ (front ++ .checkpoint c :: others)) = c := by
    intro rs
    rw [← List.append_assoc]
    exact newestOf_append_checkpoint _ _ _ hplain
  obtain ⟨hvalid, hviewed, hcuts, hindex, hterm, hcommit, hname⟩ := hrecords
  rw [hnewest] at hindex hterm hcommit
  have hidentity : c.identity = t.live.identity :=
    (hvalid (.checkpoint c) (by simp)).1
  refine ⟨fun r hr => hvalid r (mem_uncovered_append hr), ?_,
    fun first hf => hcuts first (mem_uncovered_append hf), ?_, ?_, ?_, ?_⟩
  · intro s hs hharmless
    obtain ⟨log, committed, hview, hle, -, hlog⟩ := hviewed s hs hharmless
    obtain ⟨⟨_, committed'⟩, hw, rfl, hbelow⟩ :=
      Record.viewAll_uncovered hpaired hs ⟨rfl, le_rfl⟩ hview
    refine ⟨_, committed', hw, hbelow.trans hle, ?_, hlog⟩
    rw [hcheckpoint]
    exact le_max_left _ _
  · rw [hnewest, hindex]
  · rw [hnewest, hterm]
  · rw [hnewest, hcommit]
  · rw [hnewest]
    exact .inl hidentity

theorem HardFor.delete {blocks : List Block} {front others : List Record}
    {c : CompactionCheckpoint} {covered : UInt64} (hplain : ∀ r ∈ others, r.Plain)
    (hcheckpoint : c.hardState = t.live.hardState)
    (hhard : HardFor t (blockRecords blocks ++ (front ++ .checkpoint c :: others))) :
    HardFor t (blockRecords (uncovered covered blocks) ++
      (front ++ .checkpoint c :: others)) := by
  have hbelow : ∀ h, .hardState h ∈ blockRecords (uncovered covered blocks) ++
      (front ++ .checkpoint c :: others) → HardState.Follows h t.live.hardState :=
    fun h hh => hhard.below h (mem_uncovered_append hh)
  refine ⟨?_, hbelow⟩
  have hnewest : newestOf (blockRecords (uncovered covered blocks) ++
      (front ++ .checkpoint c :: others)) = c := by
    rw [← List.append_assoc]
    exact newestOf_append_checkpoint _ _ _ hplain
  rw [hnewest, hcheckpoint]
  exact foldl_hardStep_below hbelow

end Append

end QuorumKV.Wal
