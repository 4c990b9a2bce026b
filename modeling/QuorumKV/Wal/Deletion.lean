import QuorumKV.Wal.Coverage

/-!
# Deleting covered segments loses nothing

What the files of a WAL keep of a history whose hard states and Snapshot indexes
do not go back, clean reopens included.  The last index is bounded from one side
only: a reopen may bring back an entry that a truncation below the Snapshot had
removed, so a later replay reaches at least as far as the log, not exactly as far.
-/

namespace QuorumKV.Wal

open Foundation
open QuorumKV.Raft (Bytes)

def WAL.position (w : WAL) : CompactionCheckpoint :=
  { identity := w.identity
    hardState := w.hardState
    commitIndex := w.commitIndex
    snapshotIndex := w.snapshotIndex
    snapshotTerm := w.snapshotTerm }

theorem CompactionCheckpoint.ValidStrings.congr {c other : CompactionCheckpoint}
    (h : c.ValidStrings) (hidentity : c.identity = other.identity)
    (hvoted : ValidUTF8 other.hardState.votedFor) : other.ValidStrings :=
  ⟨hidentity ▸ h.clusterID, hidentity ▸ h.nodeID, hvoted⟩

/-- The files hold records that the WAL's position subsumes and that reach its last index. -/
structure Kept (json : CheckpointJSON) (w : WAL) (records : List Record) : Prop where
  stored : Stored json w records
  accepted : ∀ r ∈ records, r.CheckpointOK
  subsumed : ∀ r ∈ records, r.SubsumedBy w.position
  newest : (newestOf records).snapshotIndex = w.snapshotIndex
  replayed : records.foldl Record.hardStep (newestOf records).hardState = w.hardState
  reaches : ∀ s, w.snapshotIndex ≤ s →
    Reaches s (fun reached => w.lastLogIndex.toNat ≤ reached) s.toNat records
  named : blank w.identity.clusterID = false ∧ blank w.identity.nodeID = false
  strings : w.position.ValidStrings

section Calls

variable {json : CheckpointJSON} {w w' : WAL} {records others : List Record}

/-! ## Appending -/

theorem reaches_hardState {s : UInt64} {state : HardState} {last bound : Nat}
    (hreached : bound ≤ last) :
    Reaches s (fun reached => bound ≤ reached) last [.hardState state] := by
  refine ⟨by simp, fun last' hreach => ?_⟩
  cases hreach
  exact hreached

theorem reaches_entries {s first : UInt64} {entries : List LogEntry} {last : Nat}
    (horder : WAL.orderError first entries = none) (hlast : s.toNat ≤ last)
    (hfirst : first.toNat ≤ last) :
    Reaches s (fun reached => (first + UInt64.ofNat entries.length).toNat ≤ reached) last
      (entries.map .entry) := by
  induction entries generalizing first last with
  | nil => simpa [Reaches] using hfirst
  | cons entry entries ih =>
      simp only [WAL.orderError] at horder
      split at horder
      · simp at horder
      next hindex =>
        rw [ne_eq, not_not] at hindex
        refine ⟨by simp, fun last' hreach => ?_⟩
        have hbound := Record.reach_ge hlast hreach
        have hnext : (first + 1).toNat ≤ last' := by
          rw [← hindex]
          simp only [Record.reach] at hreach
          split at hreach
          next hbelow =>
            rw [UInt64.le_iff_toNat_le] at hbelow
            omega
          · split at hreach
            · cases hreach
              omega
            · simp at hreach
        have hsum : first + UInt64.ofNat (entry :: entries).length =
            first + 1 + UInt64.ofNat entries.length := by
          rw [List.length_cons, UInt64.ofNat_add, UInt64.add_assoc]
          exact congrArg _ (UInt64.add_comm _ _)
        rw [hsum]
        exact ih horder hbound hnext

theorem reaches_truncation {s first : UInt64} {last : Nat} (hzero : first ≠ 0)
    (hlast : s.toNat ≤ last) :
    Reaches s (fun reached => (first - 1).toNat ≤ reached) last [.truncation first] := by
  refine ⟨by simp, fun last' hreach => ?_⟩
  simp only [Reaches, toNat_pred hzero]
  simp only [Record.reach] at hreach
  split at hreach
  next hbelow =>
    cases hreach
    rw [UInt64.le_iff_toNat_le] at hbelow
    omega
  · split at hreach
    · cases hreach
      exact le_rfl
    · simp at hreach

theorem reaches_commit {s index : UInt64} {last bound : Nat} (hindex : index.toNat ≤ last)
    (hreached : bound ≤ last) :
    Reaches s (fun reached => bound ≤ reached) last [.commit index] := by
  refine ⟨?_, fun last' hreach => ?_⟩
  · rintro other ⟨⟩
    exact hindex
  · cases hreach
    exact hreached

def WAL.Appended (w : WAL) : Record → Prop
  | .entry _ => True
  | .truncation first => first ≠ 0
  | .commit index => index = w.commitIndex
  | .hardState state => state = w.hardState
  | _ => False

structure WAL.Extends (w w' : WAL) (others : List Record) : Prop where
  identity : w'.identity = w.identity
  snapshotIndex : w'.snapshotIndex = w.snapshotIndex
  commit_le : w.commitIndex ≤ w'.commitIndex
  hardState : others = [.hardState w'.hardState] ∨
    (w'.hardState = w.hardState ∧ ∀ state, .hardState state ∉ others)
  appended : ∀ r ∈ others, w'.Appended r
  reaches : ∀ (s : UInt64) last, s.toNat ≤ last → w.lastLogIndex.toNat ≤ last →
    Reaches s (fun reached => w'.lastLogIndex.toNat ≤ reached) last others

theorem WAL.Extends.plain (h : w.Extends w' others) : ∀ r ∈ others, r.Plain := by
  rintro _ hr c rfl
  exact h.appended _ hr

theorem WAL.perform_extends {operation : Operation}
    (happends : w.appends operation = some others) (hok : w.perform json operation = some w') :
    w.Extends w' others := by
  cases operation with
  | saveHardState state =>
      obtain ⟨_, happended, rfl⟩ := WAL.appendThen_ok (Outcome.succeeded_eq_some.mp hok)
      obtain ⟨_, _, _, rfl⟩ := WAL.appendRecord_files happended
      cases happends
      exact ⟨rfl, rfl, UInt64.le_rfl, .inl rfl, by simp [WAL.Appended],
        fun _ _ _ hreached => reaches_hardState hreached⟩
  | saveLogEntries entries =>
      obtain ⟨horder, _, happended, rfl⟩ :=
        WAL.saveLogEntries_ok (Outcome.succeeded_eq_some.mp hok)
      obtain ⟨_, _, _, rfl⟩ := WAL.appendEntryRecords_files happended
      cases happends
      exact ⟨rfl, rfl, UInt64.le_rfl, .inr ⟨rfl, by simp⟩, by simp [WAL.Appended],
        fun _ _ hlast hreached => reaches_entries horder hlast hreached⟩
  | truncateLog first =>
      obtain ⟨hzero, -, -, _, happended, rfl⟩ :=
        WAL.truncateLog_ok (Outcome.succeeded_eq_some.mp hok)
      obtain ⟨_, _, _, rfl⟩ := WAL.appendRecord_files happended
      cases happends
      exact ⟨rfl, rfl, UInt64.le_rfl, .inr ⟨rfl, by simp⟩, by simpa [WAL.Appended] using hzero,
        fun _ _ hlast _ => reaches_truncation hzero hlast⟩
  | saveCommitIndex index =>
      obtain ⟨hlow, hhigh, ⟨hsame, rfl⟩ | ⟨hother, _, happended, rfl⟩⟩ :=
        WAL.saveCommitIndex_ok (Outcome.succeeded_eq_some.mp hok)
      · rw [WAL.appends, if_pos hsame] at happends
        cases happends
        exact ⟨rfl, rfl, UInt64.le_rfl, .inr ⟨rfl, by simp⟩, by simp,
          fun _ _ _ hreached => hreached⟩
      · obtain ⟨_, _, _, rfl⟩ := WAL.appendRecord_files happended
        rw [WAL.appends, if_neg hother] at happends
        cases happends
        rw [UInt64.le_iff_toNat_le] at hhigh
        exact ⟨rfl, rfl, hlow, .inr ⟨rfl, by simp⟩, by simp [WAL.Appended],
          fun _ _ _ hreached => reaches_commit (hhigh.trans hreached) hreached⟩
  | _ => simp [WAL.appends] at happends

theorem Kept.append (h : Kept json w records) (hextends : w.Extends w' others)
    (hvoted : ValidUTF8 w'.hardState.votedFor)
    (hfollows : HardState.Follows w.hardState w'.hardState)
    (hstored : Stored json w' (records ++ others)) : Kept json w' (records ++ others) where
  stored := hstored
  accepted r hr := by
    rcases List.mem_append.mp hr with hold | hnew
    · exact h.accepted r hold
    · cases r with
      | checkpoint c => exact absurd rfl (hextends.plain _ hnew c)
      | _ => trivial
  subsumed r hr := by
    rcases List.mem_append.mp hr with hold | hnew
    · exact (h.subsumed r hold).mono ⟨hextends.identity.symm, hfollows, hextends.commit_le,
        show w.snapshotIndex ≤ w'.snapshotIndex from hextends.snapshotIndex ▸ UInt64.le_rfl⟩
    · have happended := hextends.appended r hnew
      cases r with
      | hardState state =>
          obtain rfl : state = w'.hardState := happended
          exact HardState.Follows.refl _
      | commit index =>
          obtain rfl : index = w'.commitIndex := happended
          exact UInt64.le_rfl
      | truncation first => exact happended
      | entry entry => trivial
      | _ => exact happended.elim
  newest := by rw [newestOf_append_plain hextends.plain, h.newest, hextends.snapshotIndex]
  replayed := by
    rw [newestOf_append_plain hextends.plain, List.foldl_append, h.replayed]
    rcases hextends.hardState with hrecord | ⟨hsame, hnone⟩
    · rw [hrecord]
      exact Record.hardStep_follows hfollows
    · rw [foldl_hardStep_below fun state hmem => absurd hmem (hnone state), hsame]
  reaches s hs := by
    rw [reaches_append]
    exact (h.reaches s (hextends.snapshotIndex ▸ hs)).mono le_rfl fun last hlast hreached =>
      hextends.reaches s last hlast hreached
  named := hextends.identity ▸ h.named
  strings := h.strings.congr hextends.identity.symm hvoted

/-! ## Snapshots -/

/-- What a Snapshot call may write: a checkpoint beyond where the WAL stands. -/
structure WAL.Offers (w : WAL) (c : CompactionCheckpoint) : Prop where
  below : w.position.Below c
  hardState : c.hardState = w.hardState
  index : c.snapshotIndex ≠ 0
  term : c.snapshotTerm ≠ 0
  committed : c.snapshotIndex ≤ c.commitIndex
  truncate : c.truncateFrom = 0 ∨ c.truncateFrom = c.snapshotIndex + 1

theorem WAL.Offers.accepted {c : CompactionCheckpoint} (h : w.Offers c)
    (hnamed : blank w.identity.clusterID = false ∧ blank w.identity.nodeID = false) :
    (Record.checkpoint c).CheckpointOK := by
  have hidentity : c.identity = w.identity := h.below.identity.symm
  refine ⟨?_, ?_, h.index, h.term, h.committed, h.truncate⟩
  · rw [hidentity]
    exact hnamed.1
  · rw [hidentity]
    exact hnamed.2

theorem mem_checkpointRecords {c : CompactionCheckpoint} {r : Record}
    (hr : r ∈ checkpointRecords c) :
    r = .checkpoint c ∨ (c.truncateFrom ≠ 0 ∧ r = .truncation c.truncateFrom) := by
  rcases List.mem_cons.mp hr with hr | hr
  · exact .inl hr
  · split at hr
    next hfrom => exact .inr ⟨hfrom, List.mem_singleton.mp hr⟩
    · simp at hr

theorem WAL.Offers.subsumed {c : CompactionCheckpoint} (h : Kept json w records)
    (hoffers : w.Offers c) :
    ∀ r ∈ records ++ checkpointRecords c, r.SubsumedBy c ∧ r.CheckpointOK := by
  intro r hr
  rcases List.mem_append.mp hr with hold | hnew
  · exact ⟨(h.subsumed r hold).mono hoffers.below, h.accepted r hold⟩
  · rcases mem_checkpointRecords hnew with rfl | ⟨hfrom, rfl⟩
    · exact ⟨⟨rfl, UInt64.le_rfl⟩, hoffers.accepted h.named⟩
    · exact ⟨hfrom, trivial⟩

theorem reaches_checkpointRecords {c : CompactionCheckpoint} {s : UInt64} {last : Nat}
    (hs : c.snapshotIndex ≤ s) (hlast : s.toNat ≤ last) (hreached : w.lastLogIndex.toNat ≤ last) :
    Reaches s (w.ReachedAt c) last (checkpointRecords c) := by
  rw [UInt64.le_iff_toNat_le] at hs
  rw [checkpointRecords]
  refine ⟨by simp, fun middle hfirst => ?_⟩
  have hmiddle := Record.reach_ge hlast hfirst
  split
  next hfrom =>
    refine ⟨by simp, fun last' hsecond => ?_⟩
    have := Record.reach_ge hmiddle hsecond
    exact ⟨by omega, fun hzero => absurd hzero hfrom⟩
  next hfrom =>
    rw [Record.reach, if_neg fun hcut => hfrom hcut.1] at hfirst
    cases hfirst
    exact ⟨by omega, fun _ => hreached⟩

/-- The files of `w'` once `w` wrote the checkpoint transaction, before anything is deleted. -/
structure Transaction (json : CheckpointJSON) (w : WAL) (c : CompactionCheckpoint) (w' : WAL)
    (blocks : List Block) (front : List Record) : Prop where
  same : w.SameState w'
  holds : Holds json w' blocks (front ++ checkpointRecords c)
  paired : AllPaired blocks (front ++ checkpointRecords c)
  subsumed : ∀ r ∈ blockRecords blocks ++ (front ++ checkpointRecords c),
    r.SubsumedBy c ∧ r.CheckpointOK
  reaches : ∀ s, c.snapshotIndex ≤ s → Reaches s (w.ReachedAt c) s.toNat
    (blockRecords blocks ++ (front ++ checkpointRecords c))

theorem Kept.appendCheckpoint {c : CompactionCheckpoint} (h : Kept json w records)
    (hoffers : w.Offers c) (hok : w.appendCheckpoint json c = (w', none)) :
    ∃ blocks front, Transaction json w c w' blocks front := by
  have hstrings : c.ValidStrings :=
    h.strings.congr hoffers.below.identity (hoffers.hardState ▸ h.strings.votedFor)
  obtain ⟨blocks, front, hholds, hpaired, rfl⟩ :=
    h.stored.appendCheckpoint hstrings hoffers.truncate hok
  refine ⟨blocks, front, ?_, hholds, hpaired, ?_, fun s hs => ?_⟩
  · obtain ⟨_, _, _, rfl⟩ := WAL.appendCheckpoint_files hok
    exact ⟨rfl, rfl, rfl, rfl, rfl, rfl⟩
  · rw [← List.append_assoc]
    exact hoffers.subsumed h
  · rw [← List.append_assoc, reaches_append]
    refine (h.reaches s ?_).mono le_rfl fun last hlast hreached =>
      reaches_checkpointRecords hs hlast hreached
    exact UInt64.le_trans hoffers.below.snapshotIndex hs

theorem Transaction.recoveredState_filter {c : CompactionCheckpoint} {blocks : List Block}
    {front : List Record} (h : Transaction json w c w' blocks front) (hoffers : w.Offers c)
    (hnamed : blank w.identity.clusterID = false ∧ blank w.identity.nodeID = false)
    (keep : Block → Bool)
    (hcovered : ∀ block ∈ blocks, keep block = false →
      ∀ r ∈ block.records, r.coveredBy c.snapshotIndex) :
    recoveredState json ((blocks.filter keep).map (Block.segment json) ++
        [⟨w'.segment, w'.contents⟩]) = recoveredState json w'.directory := by
  have hearlier : ∀ r ∈ blockRecords blocks,
      r ∈ blockRecords blocks ++ (front ++ checkpointRecords c) :=
    fun r hr => List.mem_append.mpr (.inl hr)
  have hidentity : c.identity = w.identity := hoffers.below.identity.symm
  rw [WAL.directory, h.holds.segments, h.holds.contents]
  refine Wal.recoveredState_filter _ hoffers.committed ?_ (checkpointRecords_plain c)
    h.holds.writable (fun r hr => (h.subsumed r (hearlier r hr)).1)
    (fun r hr => (h.subsumed r hr).2) h.paired.1 hcovered
    (reaches_append.mp (h.reaches c.snapshotIndex UInt64.le_rfl))
  rw [hidentity]
  exact ⟨blank_false hnamed.1, blank_false hnamed.2⟩

def WAL.remaining (w : WAL) (deleted : Nat → Bool) : List Segment :=
  (w.segments.filter fun segment => !deleted segment.number) ++ [⟨w.segment, w.contents⟩]

theorem Kept.remaining {c : CompactionCheckpoint} (h : Kept json w records)
    (hoffers : w.Offers c) (hok : w.appendCheckpoint json c = (w', none)) {deleted : Nat → Bool}
    (hcovered : ∀ segment ∈ w'.segments, deleted segment.number = true →
      segmentCoveredBySnapshot segment.contents c.snapshotIndex = .ok true) :
    recoveredState json (w'.remaining deleted) = recoveredState json w'.directory := by
  obtain ⟨blocks, front, htransaction⟩ := h.appendCheckpoint hoffers hok
  have hholds := htransaction.holds
  have hsegments : w'.segments.filter (fun segment => !deleted segment.number) =
      (blocks.filter fun block => !deleted block.number).map (Block.segment json) := by
    rw [hholds.segments, List.filter_map]
    rfl
  rw [WAL.remaining, hsegments]
  refine htransaction.recoveredState_filter hoffers h.named _ fun block hblock hkeep => ?_
  have hsegment : Block.segment json block ∈ w'.segments := by
    rw [hholds.segments]
    exact List.mem_map_of_mem hblock
  have hscan := hcovered _ hsegment (by simpa [Block.segment] using hkeep)
  rw [Block.segment, segmentCoveredBySnapshot_written fun r hr => hholds.writable r
    (List.mem_append.mpr (.inl (List.mem_flatMap.mpr ⟨block, hblock, hr⟩))),
    Except.ok.injEq] at hscan
  exact List.all_eq_true.mp hscan

theorem WAL.Installs.reaches {c : CompactionCheckpoint} {blocks : List Block}
    {front : List Record} (h : w.Installs json c w') (hnewer : w.snapshotIndex ≤ c.snapshotIndex)
    (hpaired : ∀ block ∈ blocks, Paired block.records)
    (hreaches : ∀ s, w.snapshotIndex ≤ s → Reaches s
      (fun reached => w.lastLogIndex.toNat ≤ reached) s.toNat (blockRecords blocks ++ front))
    {s : UInt64} (hs : w'.snapshotIndex ≤ s) :
    Reaches s (fun reached => w'.lastLogIndex.toNat ≤ reached) s.toNat
      (blockRecords (uncovered c.snapshotIndex blocks) ++ (front ++ checkpointRecords c)) := by
  rw [h.snapshotIndex] at hs
  have hall : Reaches s (w.ReachedAt c) s.toNat
      (blockRecords blocks ++ (front ++ checkpointRecords c)) := by
    rw [← List.append_assoc, reaches_append]
    exact (hreaches s (UInt64.le_trans hnewer hs)).mono le_rfl fun last hlast hreached =>
      reaches_checkpointRecords hs hlast hreached
  exact (hall.uncovered hpaired hs).mono le_rfl fun last _ hreached => h.reached last hreached

theorem newestOf_installed (records front : List Record) (c : CompactionCheckpoint) :
    newestOf (records ++ (front ++ checkpointRecords c)) = c := by
  rw [← List.append_assoc]
  exact newestOf_append_checkpoint _ _ _ (checkpointRecords_plain c)

theorem Kept.installed {c : CompactionCheckpoint} (h : Kept json w records)
    (hoffers : w.Offers c) (hinstalls : w.Installs json c w') :
    ∃ records', Kept json w' records' := by
  have hstrings : c.ValidStrings :=
    h.strings.congr hoffers.below.identity (hoffers.hardState ▸ h.strings.votedFor)
  obtain ⟨blocks, front, rfl, hpaired, hstored⟩ := h.stored.installed hstrings hinstalls
  have hsubsumed : ∀ r ∈ blockRecords (uncovered c.snapshotIndex blocks) ++
      (front ++ checkpointRecords c), r.SubsumedBy c ∧ r.CheckpointOK := by
    intro r hr
    have hmem := mem_uncovered_append hr
    rw [← List.append_assoc] at hmem
    exact hoffers.subsumed h r hmem
  have hbelow : c.Below w'.position := by
    refine ⟨hinstalls.checkpoint.1.trans hinstalls.identity.symm, ?_, ?_, ?_⟩
    · exact show HardState.Follows c.hardState w'.hardState from
        (hinstalls.hardState.trans hoffers.hardState.symm) ▸ HardState.Follows.refl _
    · exact hinstalls.commitIndex ▸ UInt64.le_rfl
    · exact hinstalls.snapshotIndex ▸ UInt64.le_rfl
  refine ⟨_, hstored, fun r hr => (hsubsumed r hr).2, fun r hr => (hsubsumed r hr).1.mono hbelow,
    ?_, ?_, fun s hs => hinstalls.reaches hoffers.below.snapshotIndex hpaired h.reaches hs,
    hinstalls.identity ▸ h.named, ?_⟩
  · rw [newestOf_installed, hinstalls.snapshotIndex]
  · rw [newestOf_installed, foldl_hardStep_below fun older holder => (hsubsumed _ holder).1,
      hoffers.hardState, hinstalls.hardState]
  · exact h.strings.congr hinstalls.identity.symm
      (show ValidUTF8 w'.hardState.votedFor from hinstalls.hardState ▸ h.strings.votedFor)

theorem WAL.offers_compact {index term : UInt64} (hzero : index ≠ 0)
    (hinside : index ≤ w.commitIndex) (hregular : w.snapshotIndex ≤ index ∧ term ≠ 0) :
    w.Offers (w.compactCheckpoint index term) :=
  ⟨⟨rfl, HardState.Follows.refl _, UInt64.le_rfl, hregular.1⟩, rfl, hzero, hregular.2, hinside,
    .inl rfl⟩

theorem WAL.offers_install {index term : UInt64} (retain : Bool) (hzero : index ≠ 0)
    (hnewer : w.snapshotIndex ≤ index) (hterm : term ≠ 0) :
    w.Offers (w.installCheckpoint index term retain) := by
  refine ⟨⟨rfl, HardState.Follows.refl _, ?_, hnewer⟩, rfl, hzero, hterm, ?_, ?_⟩
  · simp only [WAL.position, WAL.installCheckpoint, UInt64.le_iff_toNat_le, UInt64.toNat_max]
    exact le_max_left _ _
  · simp only [WAL.installCheckpoint, UInt64.le_iff_toNat_le, UInt64.toNat_max]
    exact le_max_right _ _
  · simp only [WAL.installCheckpoint]
    split
    · exact .inr rfl
    · exact .inl rfl

/-! ## Reopening -/

theorem recoverSegments_replayed {blocks : List Block} {recovered : RecoveredState}
    {files : List Segment} (hwritable : ∀ r ∈ blockRecords blocks, r.Writable json)
    (haccepted : ∀ r ∈ blockRecords blocks, r.CheckpointOK)
    (hok : recoverSegments json (blocks.map (Block.segment json)) = .ok (recovered, files)) :
    Record.replayAll (newestOf (blockRecords blocks)).start (blockRecords blocks) =
      .ok recovered ∧ files = blocks.map (Block.segment json) := by
  obtain ⟨hread, herror⟩ := readSegments_written hwritable (newestOf (blockRecords blocks)).start
  rw [recoverSegments, newestCompactionCheckpoint_written hwritable haccepted] at hok
  cases hreplay : Record.replayAll (newestOf (blockRecords blocks)).start
      (blockRecords blocks) with
  | error e =>
      obtain ⟨number, position, hposition⟩ := herror e hreplay
      simp only [CompactionCheckpoint.start, newestOf] at hposition
      simp [hposition] at hok
  | ok state =>
      have hsegments := hread state hreplay
      simp only [CompactionCheckpoint.start, newestOf] at hsegments
      simp only [hsegments] at hok
      split at hok
      · simp at hok
      · cases hok
        exact ⟨rfl, rfl⟩

theorem newestOf_usable (haccepted : ∀ r ∈ records, r.CheckpointOK) :
    (newestOf records).start.Usable := by
  rcases newestOf_mem records with hnone | hmem
  · rw [hnone]
    exact ⟨trivial, Nat.two_pow_pos 64, UInt64.le_rfl⟩
  · obtain ⟨-, -, -, -, hcommit, -⟩ := haccepted _ hmem
    exact ⟨trivial, (newestOf records).snapshotIndex.toNat_lt, hcommit⟩

theorem replayAll_hardState {state state' : RecoveredState}
    (hok : Record.replayAll state records = .ok state') :
    state'.hardState = records.foldl Record.hardStep state.hardState := by
  induction records generalizing state with
  | nil =>
      cases hok
      rfl
  | cons record records ih =>
      rw [Record.replayAll] at hok
      split at hok
      · simp at hok
      next next hnext => rw [ih hok, (Record.replay_ok hnext).1, List.foldl_cons]

theorem Stored.reopen {size : Nat} {recovered : RecoveredState} (h : Stored json w records)
    (haccepted : ∀ r ∈ records, r.CheckpointOK)
    (hok : openWAL json w.directory w.identity size = .ok (w', recovered)) :
    Record.replayAll (newestOf records).start records = .ok recovered ∧
      w' = resumeWAL w.identity size recovered w.segments ⟨w.segment, w.contents⟩ := by
  obtain ⟨blocks, hdirectory, hrecords, hwritable⟩ := h.directory
  obtain ⟨-, -, -, ⟨hempty, -⟩ | ⟨files, active, hrecover, rfl⟩⟩ := openWAL_ok hok
  · simp [WAL.directory] at hempty
  · rw [← hrecords] at haccepted hwritable
    rw [hdirectory] at hrecover
    obtain ⟨hreplay, hfiles⟩ := recoverSegments_replayed hwritable haccepted hrecover
    rw [← hdirectory] at hfiles
    obtain ⟨rfl, hactive⟩ := List.append_inj' hfiles rfl
    rw [List.singleton_inj] at hactive
    rw [hrecords] at hreplay
    exact ⟨hreplay, by rw [hactive]⟩

theorem reaches_reopen {size : Nat} {recovered : RecoveredState} {files : List Segment}
    {active : Segment} (haccepted : ∀ r ∈ records, r.CheckpointOK)
    (hreplay : Record.replayAll (newestOf records).start records = .ok recovered)
    (hnewest : (newestOf records).snapshotIndex = w.snapshotIndex)
    (holder : ∀ c, .checkpoint c ∈ records → c.snapshotIndex ≤ w.snapshotIndex)
    {s : UInt64} (hreaches : Reaches s (fun reached => w.lastLogIndex.toNat ≤ reached) s.toNat
      records) (hs : w.snapshotIndex ≤ s) :
    Reaches s (fun reached => (resumeWAL w.identity size recovered files
      active).lastLogIndex.toNat ≤ reached) s.toNat records := by
  obtain ⟨husable, -, -, -, hreached⟩ := Record.replayAll_reach (newestOf_usable haccepted) hreplay
  have hlast : (resumeWAL w.identity size recovered files active).lastLogIndex.toNat =
      recovered.last := husable.lastIndex
  have hle : (newestOf records).snapshotIndex ≤ s := hnewest ▸ hs
  rw [hlast]
  exact hreaches.reopen hle (UInt64.le_iff_toNat_le.mp hle) le_rfl
    (fun c hc => hnewest ▸ holder c hc) hreached

theorem Kept.reopen {size : Nat} {recovered : RecoveredState} (h : Kept json w records)
    (hok : openWAL json w.directory w.identity size = .ok (w', recovered)) :
    Kept json w' records ∧ w'.hardState = w.hardState ∧ w'.snapshotIndex = w.snapshotIndex := by
  obtain ⟨hreplay, rfl⟩ := h.stored.reopen h.accepted hok
  obtain ⟨-, hindex, -, hcommits, -⟩ :=
    Record.replayAll_reach (newestOf_usable h.accepted) hreplay
  have hhard : recovered.hardState = w.hardState :=
    (replayAll_hardState hreplay).trans h.replayed
  have hsnapshot : recovered.snapshotIndex = w.snapshotIndex := hindex.trans h.newest
  refine ⟨⟨h.stored.congr rfl rfl, h.accepted, fun r hr => ?_, h.newest.trans hsnapshot.symm,
    h.replayed.trans hhard.symm, fun s hs => ?_, h.named,
    h.strings.congr rfl (show ValidUTF8 recovered.hardState.votedFor from
      hhard ▸ h.strings.votedFor)⟩, hhard, hsnapshot⟩
  · have hold := h.subsumed r hr
    cases r with
    | hardState older => exact show HardState.Follows older recovered.hardState from hhard ▸ hold
    | commit index => exact hcommits index hr
    | checkpoint c =>
        exact ⟨hold.1, show c.snapshotIndex ≤ recovered.snapshotIndex from hsnapshot ▸ hold.2⟩
    | entry entry => trivial
    | _ => exact hold
  · have hs : w.snapshotIndex ≤ s := hsnapshot ▸ hs
    exact reaches_reopen h.accepted hreplay h.newest (fun c hc => (h.subsumed _ hc).2)
      (h.reaches s hs) hs

/-! ## Whole histories -/

structure Follows (json : CheckpointJSON) (w : WAL) (t : Trace) : Prop where
  kept : ∃ records, Kept json w records
  hardState : w.hardState = t.live.hardState
  snapshotIndex : w.snapshotIndex = t.live.snapshotIndex

theorem Follows.append {t : Trace} {operation : Operation} (h : Follows json w t)
    (hregular : t.Regular operation) (hmonotone : t.Monotone operation)
    (hreopen : ∀ size, operation ≠ .reopen size) (happends : w.appends operation = some others)
    (hok : w.perform json operation = some w') : ∃ records, Kept json w' records := by
  obtain ⟨records, hkept⟩ := h.kept
  refine ⟨_, hkept.append (WAL.perform_extends happends hok) ?_ ?_
    (hkept.stored.perform happends hok)⟩
  · rcases WAL.perform_hardState hreopen hok with hstate | ⟨-, hsame⟩
    · rw [hstate] at hregular
      exact hregular
    · exact hsame ▸ hkept.strings.votedFor
  · rcases WAL.perform_hardState hreopen hok with hstate | ⟨-, hsame⟩
    · rw [hstate] at hmonotone
      exact h.hardState ▸ hmonotone
    · exact hsame ▸ HardState.Follows.refl _

theorem Follows.perform {t : Trace} {operation : Operation} (h : Follows json w t)
    (hregular : t.Regular operation) (hmonotone : t.Monotone operation)
    (hok : w.perform json operation = some w') : Follows json w' (t.perform operation) := by
  obtain ⟨records, hkept⟩ := h.kept
  by_cases hreopen : ∃ size, operation = .reopen size
  · obtain ⟨size, rfl⟩ := hreopen
    simp only [WAL.perform] at hok
    split at hok
    · simp at hok
    next opened recovered hopen =>
      cases hok
      obtain ⟨hnext, hstate, hsame⟩ := hkept.reopen hopen
      exact ⟨⟨records, hnext⟩, hstate.trans h.hardState, hsame.trans h.snapshotIndex⟩
  · rw [not_exists] at hreopen
    have htracks := WAL.perform_tracks hreopen hok t.live
    refine ⟨?_, htracks.hardState h.hardState, htracks.snapshotIndex h.snapshotIndex⟩
    cases operation with
    | compact index term =>
        have hcall := Outcome.succeeded_eq_some.mp hok
        obtain ⟨hzero, hinside, -⟩ := WAL.compact_ok hcall
        exact hkept.installed (WAL.offers_compact hzero hinside (h.snapshotIndex ▸ hregular))
          (WAL.compact_installs hcall)
    | installSnapshot index term retain =>
        have hcall := Outcome.succeeded_eq_some.mp hok
        obtain ⟨hzero, hterm, hnewer, -⟩ := WAL.installSnapshot_ok hcall
        exact hkept.installed (WAL.offers_install retain hzero hnewer hterm)
          (WAL.installSnapshot_installs hcall)
    | reopen size => exact absurd rfl (hreopen size)
    | _ => exact h.append hregular hmonotone hreopen rfl hok

theorem Follows.performAll {t : Trace} {operations : List Operation} (h : Follows json w t)
    (hregular : t.Along Trace.Regular operations) (hmonotone : t.Along Trace.Monotone operations)
    (hok : w.performAll json operations = some w') :
    Follows json w' (t.performAll operations) := by
  induction operations generalizing w t with
  | nil =>
      cases hok
      exact h
  | cons operation operations ih =>
      simp only [WAL.performAll, Option.bind_eq_some_iff] at hok
      obtain ⟨middle, hfirst, hrest⟩ := hok
      exact ih (h.perform hregular.1 hmonotone.1 hfirst) hregular.2 hmonotone.2 hrest

theorem Represents.reaches_initial {identity : Identity}
    (hrep : Represents json True w (Trace.initial identity)
      [.clusterIdentity identity.clusterID, .nodeIdentity identity.nodeID]) (s : UInt64) :
    Reaches s (fun reached => w.lastLogIndex.toNat ≤ reached) s.toNat
      [.clusterIdentity identity.clusterID, .nodeIdentity identity.nodeID] := by
  have hlast : w.lastLogIndex = 0 := hrep.agrees.lastLogIndex
  refine ⟨by simp, fun last' hreach => ⟨by simp, fun last'' hreach' => ?_⟩⟩
  cases hreach
  cases hreach'
  simp [Reaches, hlast]

theorem Represents.position_strings {monotone : Prop} {t : Trace}
    (hrep : Represents json monotone w t records) : w.position.ValidStrings :=
  ⟨show ValidUTF8 w.identity.clusterID from hrep.agrees.identity ▸ hrep.strings.1,
    show ValidUTF8 w.identity.nodeID from hrep.agrees.identity ▸ hrep.strings.2, hrep.held⟩

theorem follows_initial {identity : Identity} {size : Nat} {fresh : RecoveredState}
    (hstrings : ValidUTF8 identity.clusterID ∧ ValidUTF8 identity.nodeID)
    (hopen : openWAL json [] identity size = .ok (w, fresh)) :
    Follows json w (Trace.initial identity) := by
  have hrep : Represents json True w (Trace.initial identity) _ :=
    represents_initial hstrings hopen
  have hagrees := hrep.agrees
  obtain ⟨hhard, hfor⟩ := hrep.hard trivial
  refine ⟨⟨_, hrep.stored, by simp [Record.CheckpointOK], ?_, hagrees.snapshotIndex.symm,
    hfor.replayed.trans hhard.symm, fun s _ => hrep.reaches_initial s, ?_,
    hrep.position_strings⟩, hhard, hagrees.snapshotIndex⟩
  · simp only [List.mem_cons, List.not_mem_nil, or_false]
    rintro r (rfl | rfl)
    · exact (congrArg Identity.clusterID hagrees.identity).symm
    · exact (congrArg Identity.nodeID hagrees.identity).symm
  · rw [hagrees.identity]
    exact hrep.named

def WAL.checkpoint (w : WAL) : Operation → Option CompactionCheckpoint
  | .compact index term =>
      if index = 0 ∨ index > w.commitIndex then none
      else some (w.compactCheckpoint index term)
  | .installSnapshot index term retain =>
      if index = 0 ∨ term = 0 ∨ index < w.snapshotIndex then none
      else if retain = false ∧ index < w.commitIndex then none
      else some (w.installCheckpoint index term retain)
  | _ => none

theorem Follows.offers {t : Trace} {operation : Operation} {c : CompactionCheckpoint}
    (h : Follows json w t) (hregular : t.Regular operation)
    (hcheckpoint : w.checkpoint operation = some c) : w.Offers c := by
  cases operation with
  | compact index term =>
      rw [WAL.checkpoint, Option.ite_none_left_eq_some, not_or, gt_iff_lt, UInt64.not_lt,
        Option.some.injEq] at hcheckpoint
      obtain ⟨⟨hzero, hinside⟩, rfl⟩ := hcheckpoint
      exact WAL.offers_compact hzero hinside (h.snapshotIndex ▸ hregular)
  | installSnapshot index term retain =>
      rw [WAL.checkpoint, Option.ite_none_left_eq_some, Option.ite_none_left_eq_some, not_or,
        not_or, UInt64.not_lt, Option.some.injEq] at hcheckpoint
      obtain ⟨⟨hzero, hterm, hnewer⟩, -, rfl⟩ := hcheckpoint
      exact WAL.offers_install retain hzero hnewer hterm
  | _ => simp [WAL.checkpoint] at hcheckpoint

end Calls

/-! ## Results -/

/--
Open a new directory, make the calls, and write the checkpoint of one more Snapshot
call: the WAL before the call deletes anything.  `none` when a call fails.
-/
def writeCheckpoint (json : CheckpointJSON) (identity : Identity) (size : Nat)
    (operations : List Operation) (snapshot : Operation) :
    Option (CompactionCheckpoint × WAL) :=
  match openWAL json [] identity size with
  | .error _ => none
  | .ok (w, _) => do
      let w ← w.performAll json operations
      let c ← w.checkpoint snapshot
      let w ← Outcome.succeeded (w.appendCheckpoint json c)
      return (c, w)

section Histories

variable {json : CheckpointJSON} {identity : Identity} {size : Nat}
  {operations : List Operation} {snapshot : Operation} {c : CompactionCheckpoint} {w : WAL}

theorem writeCheckpoint_some
    (hrun : writeCheckpoint json identity size operations snapshot = some (c, w)) :
    ∃ opened fresh before, openWAL json [] identity size = .ok (opened, fresh) ∧
      opened.performAll json operations = some before ∧
      before.checkpoint snapshot = some c ∧ before.appendCheckpoint json c = (w, none) := by
  rw [writeCheckpoint] at hrun
  split at hrun
  · simp at hrun
  next opened fresh hopen =>
    simp only [Option.bind_eq_bind, Option.bind_eq_some_iff, Option.pure_def, Option.some.injEq,
      Prod.mk.injEq] at hrun
    obtain ⟨before, hbefore, c', hcheckpoint, w', happended, rfl, rfl⟩ := hrun
    exact ⟨opened, fresh, before, hopen, hbefore, hcheckpoint,
      Outcome.succeeded_eq_some.mp happended⟩

/--
Whichever of the covered segments are gone, recovery gives what it gives with all
of them, in every history whose hard states and Snapshot indexes do not go back.
-/
theorem covered_segments_redundant
    (hstrings : ValidUTF8 identity.clusterID ∧ ValidUTF8 identity.nodeID)
    (hregular : (Trace.initial identity).Along Trace.Regular (operations ++ [snapshot]))
    (hmonotone : (Trace.initial identity).Along Trace.Monotone operations)
    (hrun : writeCheckpoint json identity size operations snapshot = some (c, w))
    (deleted : Nat → Bool)
    (hcovered : ∀ segment ∈ w.segments, deleted segment.number = true →
      segmentCoveredBySnapshot segment.contents c.snapshotIndex = .ok true) :
    recoveredState json (w.remaining deleted) = recoveredState json w.directory := by
  obtain ⟨opened, fresh, before, hopen, hbefore, hcheckpoint, happended⟩ :=
    writeCheckpoint_some hrun
  obtain ⟨hregular, hlast, -⟩ := Trace.along_append.mp hregular
  have hfollows := (follows_initial hstrings hopen).performAll hregular hmonotone hbefore
  obtain ⟨records, hkept⟩ := hfollows.kept
  exact hkept.remaining (hfollows.offers hlast hcheckpoint) happended hcovered

/-- Two compactions in segments so small that nearly every record begins one. -/
def compactedTwice : List Operation :=
  [.saveHardState ⟨1, [110]⟩, .saveLogEntries [sampleEntry 1 1, sampleEntry 2 1],
    .saveCommitIndex 1, .compact 1 1, .saveCommitIndex 2]

def allCovered (written : CompactionCheckpoint × WAL) : Bool :=
  written.2.segments.all fun segment =>
    (segmentCoveredBySnapshot segment.contents written.1.snapshotIndex).toOption == some true

theorem allCovered_ok (h : allCovered (c, w) = true) : ∀ segment ∈ w.segments,
    segmentCoveredBySnapshot segment.contents c.snapshotIndex = .ok true := by
  intro segment hsegment
  have hscan := List.all_eq_true.mp h segment hsegment
  rw [beq_iff_eq] at hscan
  cases hresult : segmentCoveredBySnapshot segment.contents c.snapshotIndex with
  | error e => simp [hresult, Except.toOption] at hscan
  | ok covered => simpa [hresult, Except.toOption] using hscan

/-- Segments 3 and 6 are deleted, segment 5 between them is still there. -/
theorem covered_segments_redundant_gap : ∃ c w,
    writeCheckpoint escapedCheckpoints sampleIdentity 64 compactedTwice (.compact 2 1) =
      some (c, w) ∧
    w.segments.map Segment.number = [3, 5, 6] ∧
    recoveredState escapedCheckpoints (w.remaining fun number => number != 5) =
      recoveredState escapedCheckpoints w.directory := by
  obtain ⟨⟨c, w⟩, hrun, hnumbers, hcovered⟩ : ∃ written ∈ writeCheckpoint escapedCheckpoints
      sampleIdentity 64 compactedTwice (.compact 2 1),
      written.2.segments.map Segment.number = [3, 5, 6] ∧ allCovered written = true := by
    decide +kernel
  refine ⟨c, w, hrun, hnumbers, covered_segments_redundant sampleIdentity_valid ?_ (by decide)
    hrun _ fun segment hsegment _ => allCovered_ok hcovered segment hsegment⟩
  exact ⟨⟨['n'], rfl⟩, trivial, trivial, ⟨by decide, by decide⟩, trivial, ⟨by decide, by decide⟩,
    trivial⟩

/-- A compaction at term zero, which `Compact` accepts and recovery does not. -/
def compactedAtTermZero : List Operation :=
  [.saveLogEntries [sampleEntry 1 1, sampleEntry 2 1], .saveCommitIndex 2, .compact 1 0]

/-- The covered segment 5 holds the checkpoint that recovery refuses. -/
theorem covered_segment_refused : ∃ c w,
    writeCheckpoint escapedCheckpoints sampleIdentity 64 compactedAtTermZero (.compact 2 1) =
      some (c, w) ∧
    (∀ segment ∈ w.segments,
      segmentCoveredBySnapshot segment.contents c.snapshotIndex = .ok true) ∧
    (recoveredState escapedCheckpoints w.directory).toOption = none ∧
    (recoveredState escapedCheckpoints (w.remaining fun number => number == 5)).toOption ≠ none := by
  obtain ⟨⟨c, w⟩, hrun, hcovered, hrefused, hopens⟩ : ∃ written ∈ writeCheckpoint
      escapedCheckpoints sampleIdentity 64 compactedAtTermZero (.compact 2 1),
      allCovered written = true ∧
        (recoveredState escapedCheckpoints written.2.directory).toOption = none ∧
        (recoveredState escapedCheckpoints
          (written.2.remaining fun number => number == 5)).toOption ≠ none := by
    decide +kernel
  exact ⟨c, w, hrun, allCovered_ok hcovered, hrefused, hopens⟩

end Histories

end QuorumKV.Wal
