import QuorumKV.Wal.Represents

/-!
# Closing and reopening

A WAL that represents a history recovers that history's live state, or refuses
a truncation that the newest checkpoint's commit index forbids.  Both results
are conditional on the truncations the history made: `Trace.Meets` says when the
state comes back, `Trace.HarmlessAt` when opening only succeeds.
-/

namespace QuorumKV.Wal

open Foundation
open QuorumKV.Raft (Bytes)

section Reopen

variable {json : CheckpointJSON} {monotone : Prop} {w w' : WAL} {t : Trace}
  {records : List Record}

/-- What recovery gives for the live state, the hard state apart. -/
structure RecoveredState.Restores (faithful : Prop) (recovered live : RecoveredState) : Prop where
  identity : recovered.identity = live.identity
  log : faithful → recovered.log = live.log
  commitIndex : recovered.commitIndex = live.commitIndex
  snapshotIndex : recovered.snapshotIndex = live.snapshotIndex
  snapshotTerm : recovered.snapshotTerm = live.snapshotTerm

theorem RecoveredState.Restores.eq {faithful : Prop} {recovered live : RecoveredState}
    (h : Restores faithful recovered live) (hfaithful : faithful)
    (hhard : recovered.hardState = live.hardState) : recovered = live := by
  obtain ⟨h1, h2, h3, h4, h5⟩ := h
  cases recovered
  cases live
  simp_all

theorem LogView.Matches.restores {faithful : Prop} {log : List LogEntry} {committed : Nat}
    {state : RecoveredState} (hwf : t.WellFormed)
    (hlog : faithful → log = t.above t.live.snapshotIndex)
    (hmatch : LogView.Matches ⟨log, committed⟩ t.live.identity t.live.snapshotIndex
      t.checkpointCommit.toNat state)
    (hle : committed ≤ t.live.commitIndex.toNat)
    (hge : t.live.commitIndex.toNat ≤ max t.checkpointCommit.toNat committed)
    (hterm : state.snapshotTerm = t.live.snapshotTerm) : state.Restores faithful t.live := by
  refine ⟨hmatch.identity, fun hfaithful => ?_, ?_, hmatch.snapshotIndex, hterm⟩
  · rw [hmatch.log, hlog hfaithful, hwf.above_eq]
    simp
  · have hcheckpoint := hwf.checkpoint_le
    have hcommit := hmatch.commitIndex
    simp only at hcommit
    apply UInt64.toNat_inj.mp
    omega

theorem RecordsFor.replay (hrecords : RecordsFor t records) (hwf : t.WellFormed)
    (hidentity : t.live.identity.clusterID ≠ [] ∧ t.live.identity.nodeID ≠ [])
    (hharmless : t.HarmlessAt t.live.snapshotIndex) :
    (∃ state, Record.replayAll (newestOf records).start records = .ok state ∧
      state.Restores (t.FaithfulAt t.live.snapshotIndex) t.live ∧
      state.hardState = records.foldl Record.hardStep (newestOf records).hardState) ∨
    ((∃ r ∈ records, Forbidden t.live.snapshotIndex t.checkpointCommit.toNat r) ∧
      ∃ e, Record.replayAll (newestOf records).start records = .error e) := by
  obtain ⟨log, committed, hview, hle, hge, hlog, -⟩ := hrecords.viewed _ UInt64.le_rfl hharmless
  have hroom := t.live.snapshotIndex.toNat_lt
  have hstart : ∀ state : RecoveredState, state.identity = t.live.identity →
      state.snapshotIndex = t.live.snapshotIndex → state.log = [] →
      state.commitIndex = t.checkpointCommit →
      LogView.Matches {} t.live.identity t.live.snapshotIndex t.checkpointCommit.toNat state := by
    intro state h1 h2 h3 h4
    exact ⟨h1, h2, h3, by rw [h4]; exact (Nat.max_zero _).symm, by simpa using hroom, by simp⟩
  rcases hrecords.named with hnamed | ⟨hnone, rest, rfl⟩
  · rcases Record.replayAll_view hidentity hrecords.valid
      (hstart (newestOf records).start hnamed hrecords.snapshotIndex rfl hrecords.commitIndex)
      hview with ⟨state, hok, hmatch, hhard, hterm⟩ | hforbidden
    · exact .inl ⟨state, hok, hmatch.restores hwf hlog hle hge
        (hterm.trans hrecords.snapshotTerm), hhard⟩
    · exact .inr hforbidden
  · -- No checkpoint yet: the two identity records come first and set the identity.
    have hindex := hrecords.snapshotIndex
    have hterm := hrecords.snapshotTerm
    have hcommit := hrecords.commitIndex
    have hstep : Record.replayAll (newestOf (.clusterIdentity t.live.identity.clusterID ::
        .nodeIdentity t.live.identity.nodeID :: rest)).start
        (.clusterIdentity t.live.identity.clusterID ::
          .nodeIdentity t.live.identity.nodeID :: rest) =
        Record.replayAll { identity := t.live.identity } rest := by
      rw [hnone]
      simp [Record.replayAll, Record.replay, CompactionCheckpoint.start,
        RecoveredState.applyClusterIdentity, RecoveredState.applyNodeIdentity, hidentity.1]
    rw [hnone] at hindex hterm hcommit
    rw [hstep, hnone]
    have hrest : Record.viewAll t.live.snapshotIndex {} rest =
        some ⟨log, committed⟩ := hview
    rcases Record.replayAll_view hidentity
      (fun r hr => hrecords.valid r (by simp [hr]))
      (hstart { identity := t.live.identity } rfl hindex rfl hcommit) hrest with
      ⟨state, hok, hmatch, hhard, hsame⟩ | ⟨⟨r, hr, hforbidden⟩, he⟩
    · exact .inl ⟨state, hok, hmatch.restores hwf hlog hle hge (hsame.trans hterm), hhard⟩
    · exact .inr ⟨⟨r, by simp [hr], hforbidden⟩, he⟩

theorem blank_false {bytes : Bytes} (h : blank bytes = false) : bytes ≠ [] := by
  rintro rfl
  exact absurd h (by decide)

theorem Stored.directory (hstored : Stored json w records) :
    ∃ blocks : List Block, w.directory = blocks.map (Block.segment json) ∧
      blockRecords blocks = records ∧ (∀ r ∈ records, r.Writable json) := by
  obtain ⟨blocks, active, hholds, -, rfl⟩ := hstored
  refine ⟨blocks ++ [⟨w.segment, active⟩], ?_, by simp [blockRecords], hholds.writable⟩
  simp [WAL.directory, Block.segment, hholds.segments, hholds.contents]

theorem Represents.recoverSegments (hrep : Represents json monotone w t records)
    (hharmless : t.HarmlessAt t.live.snapshotIndex) :
    (∃ recovered, Wal.recoverSegments json w.directory = .ok (recovered, w.directory) ∧
      recovered.Restores (t.FaithfulAt t.live.snapshotIndex) t.live ∧
      recovered.hardState = records.foldl Record.hardStep (newestOf records).hardState) ∨
    ((∃ r ∈ records, Forbidden t.live.snapshotIndex t.checkpointCommit.toNat r) ∧
      ∃ e, Wal.recoverSegments json w.directory = .error e) := by
  have hidentity := And.intro (blank_false hrep.named.1) (blank_false hrep.named.2)
  obtain ⟨blocks, hdirectory, rfl, hwritable⟩ := hrep.stored.directory
  obtain ⟨hok, herror⟩ := recoverSegments_written hwritable
    (fun r hr => (hrep.represented.valid r hr).2.1)
  rw [hdirectory]
  rcases hrep.represented.replay hrep.wellFormed hidentity hharmless with
    ⟨state, hreplay, hrestores, hhard⟩ | ⟨hforbidden, e, hreplay⟩
  · refine .inl ⟨state, hok state hreplay ?_ ?_, hrestores, hhard⟩
    · rw [hrestores.identity]
      exact hidentity.1
    · rw [hrestores.identity]
      exact hidentity.2
  · exact .inr ⟨hforbidden, herror e hreplay⟩

theorem openWAL_directory_error {e : RecoverError} (identity : Identity) (size : Nat)
    (hrecover : recoverSegments json w.directory = .error e) :
    ∃ error, openWAL json w.directory identity size = .error error := by
  simp only [openWAL]
  split
  · exact ⟨_, rfl⟩
  · split
    · exact ⟨_, rfl⟩
    · cases hdirectory : w.directory with
      | nil => simp [WAL.directory] at hdirectory
      | cons segment segments =>
          rw [hdirectory] at hrecover
          exact ⟨.recover e, by simp only [openSegments, hrecover]⟩

theorem openWAL_directory_ok {identity : Identity} {size : Nat} {recovered : RecoveredState}
    (hnamed : blank identity.clusterID = false ∧ blank identity.nodeID = false)
    (hsize : segmentHeaderSize + frameHeaderSize < size)
    (hrecover : recoverSegments json w.directory = .ok (recovered, w.directory))
    (hidentity : recovered.identity = identity) :
    openWAL json w.directory identity size =
      .ok (resumeWAL identity size recovered w.segments ⟨w.segment, w.contents⟩, recovered) := by
  have hfiles : w.directory.dropLast = w.segments ∧
      w.directory.getLast? = some ⟨w.segment, w.contents⟩ := by
    simp [WAL.directory]
  rw [openWAL, hnamed.1, hnamed.2, if_neg (by simp), if_neg (Nat.not_le.mpr hsize)]
  cases hdirectory : w.directory with
  | nil => simp [WAL.directory] at hdirectory
  | cons segment segments =>
      rw [hdirectory] at hrecover hfiles
      simp only [openSegments, hrecover, hidentity, ne_eq, not_true, if_false, hfiles.1, hfiles.2,
        Option.getD_some]

theorem foldl_hardStep_voted {hard : HardState} (hstart : ValidUTF8 hard.votedFor)
    (hvoted : ∀ h, .hardState h ∈ records → ValidUTF8 h.votedFor) :
    ValidUTF8 (records.foldl Record.hardStep hard).votedFor := by
  induction records generalizing hard with
  | nil => exact hstart
  | cons record records ih =>
      refine ih ?_ fun h hh => hvoted h (by simp [hh])
      cases record with
      | hardState h =>
          simp only [Record.hardStep]
          split
          · exact hstart
          · split
            · exact hstart
            · exact hvoted h (by simp)
      | _ => exact hstart

theorem newestOf_mem (records : List Record) :
    newestOf records = {} ∨ .checkpoint (newestOf records) ∈ records := by
  suffices h : ∀ found : CompactionCheckpoint, records.foldl Record.newest found = found ∨
      .checkpoint (records.foldl Record.newest found) ∈ records from h {}
  induction records with
  | nil => exact fun found => .inl rfl
  | cons record records ih =>
      intro found
      rw [List.foldl_cons]
      rcases ih (Record.newest found record) with hsame | hmem
      · rw [hsame]
        cases record with
        | checkpoint c => exact .inr (by simp [Record.newest])
        | _ => exact .inl rfl
      · exact .inr (List.mem_cons_of_mem _ hmem)

theorem validUTF8_nil : ValidUTF8 [] := ByteArray.isValidUTF8_empty

theorem newestOf_voted (hwritable : ∀ r ∈ records, r.Writable json) :
    ValidUTF8 (newestOf records).hardState.votedFor := by
  rcases newestOf_mem records with hnone | hmem
  · rw [hnone]
    exact validUTF8_nil
  · exact (hwritable _ hmem).encodable.votedFor

/-- A reopen after a harmless past recovers the position, and the log after a faithful one. -/
theorem Represents.restores {size : Nat} {recovered : RecoveredState}
    (hrep : Represents json monotone w t records)
    (hharmless : t.HarmlessAt t.live.snapshotIndex)
    (hok : openWAL json w.directory t.live.identity size = .ok (w', recovered)) :
    w' = resumeWAL t.live.identity size recovered w.segments ⟨w.segment, w.contents⟩ ∧
      recovered.Restores (t.FaithfulAt t.live.snapshotIndex) t.live ∧
      recovered.hardState = records.foldl Record.hardStep (newestOf records).hardState := by
  rcases hrep.recoverSegments hharmless with
    ⟨state, hrecover, hrestores, hhard⟩ | ⟨-, e, hrecover⟩
  · have hsize : segmentHeaderSize + frameHeaderSize < size := by
      by_contra hsmall
      simp [openWAL, hrep.named.1, hrep.named.2, Nat.not_lt.mp hsmall] at hok
    rw [openWAL_directory_ok hrep.named hsize hrecover hrestores.identity] at hok
    cases hok
    exact ⟨rfl, hrestores, hhard⟩
  · obtain ⟨error, herror⟩ := openWAL_directory_error t.live.identity size hrecover
    rw [herror] at hok
    simp at hok

/-- A successful reopen recovers the live state and goes on representing the history. -/
theorem Represents.reopen {size : Nat} {recovered : RecoveredState}
    (hrep : Represents json monotone w t records)
    (hfaithful : t.FaithfulAt t.live.snapshotIndex)
    (hok : openWAL json w.directory t.live.identity size = .ok (w', recovered)) :
    (monotone → recovered = t.live) ∧
      Represents json monotone w' (t.perform (.reopen size)) records := by
  obtain ⟨rfl, hrestores, hhard⟩ := hrep.restores hfaithful.harmless hok
  have hlive : monotone → recovered.hardState = t.live.hardState :=
    fun hm => hhard.trans (hrep.hard hm).2.replayed
  have hrecords := hrep.represented.perform {} hrep.wellFormed hrep.named
    (show t.Accepts (.reopen size) from trivial) trivial
  simp only [Trace.recordsOf, List.append_nil] at hrecords
  refine ⟨fun hm => hrestores.eq hfaithful (hlive hm), hrep.stored.congr rfl rfl, hrecords,
    hrep.voted, fun hm => ⟨hlive hm, (hrep.hard hm).2.1, (hrep.hard hm).2.2⟩,
    hrep.wellFormed.perform trivial, hrep.named, hrep.strings, ?_, ?_⟩
  · obtain ⟨-, -, -, hwritable⟩ := hrep.stored.directory
    simp only [resumeWAL, hhard]
    exact foldl_hardStep_voted (newestOf_voted hwritable) hrep.voted
  · refine ⟨rfl, ?_, hrestores.commitIndex, hrestores.snapshotIndex, hrestores.snapshotTerm⟩
    simp [resumeWAL, RecoveredState.lastIndex, hrestores.snapshotIndex, hrestores.log hfaithful,
      Trace.perform, RecoveredState.perform]

theorem Represents.opens {size : Nat} (hrep : Represents json monotone w t records)
    (hharmless : t.HarmlessAt t.live.snapshotIndex) (hpermitted : t.Permitted)
    (hsize : segmentHeaderSize + frameHeaderSize < size) :
    ∃ w' recovered, openWAL json w.directory t.live.identity size = .ok (w', recovered) := by
  rcases hrep.recoverSegments hharmless with
    ⟨state, hrecover, hrestores, -⟩ | ⟨⟨r, hr, first, rfl, habove, hforbidden⟩, -⟩
  · exact ⟨_, _, openWAL_directory_ok hrep.named hsize hrecover hrestores.identity⟩
  · obtain ⟨cut, hcut, rfl⟩ := hrep.represented.cuts first hr
    have hbeyond := UInt64.lt_iff_toNat_lt.mp (hpermitted cut hcut habove)
    omega

/-! ## Whole histories -/

theorem Represents.perform {operation : Operation}
    (hrep : Represents json monotone w t records) (hregular : t.Regular operation)
    (hmonotone : monotone → t.Monotone operation) (hmeets : t.Meets operation)
    (hok : w.perform json operation = some w') :
    ∃ records', Represents json monotone w' (t.perform operation) records' := by
  have haccepts := hrep.accepts hregular hmeets hok
  cases operation with
  | saveHardState _ | saveLogEntries _ | truncateLog _ | saveCommitIndex _ =>
      exact hrep.append haccepts hregular hmonotone rfl hok
  | compact index term =>
      refine hrep.installed haccepts hregular hmonotone ?_ rfl rfl rfl
        (WAL.compact_installs (Outcome.succeeded_eq_some.mp hok))
        (hrep.agrees.perform hrep.wellFormed haccepts (by simp) hok)
      simp [Trace.recordsOf, checkpointRecords, Trace.checkpointOf, WAL.compactCheckpoint,
        hrep.agrees.identity, hrep.agrees.commitIndex]
  | installSnapshot index term retain =>
      exact hrep.installed haccepts hregular hmonotone (hrep.recordsOf_install haccepts hregular)
        rfl rfl rfl (WAL.installSnapshot_installs (Outcome.succeeded_eq_some.mp hok))
        (hrep.agrees.perform hrep.wellFormed haccepts (by simp) hok)
  | reopen size =>
      simp only [WAL.perform, hrep.agrees.identity] at hok
      split at hok
      · simp at hok
      · next opened recovered hopen =>
          cases hok
          exact ⟨records, (hrep.reopen hmeets hopen).2⟩

theorem Represents.performAll {operations : List Operation}
    (hrep : Represents json monotone w t records)
    (hregular : t.Along Trace.Regular operations)
    (hmonotone : monotone → t.Along Trace.Monotone operations)
    (hmeets : t.Along Trace.Meets operations)
    (hok : w.performAll json operations = some w') :
    ∃ records', Represents json monotone w' (t.performAll operations) records' := by
  induction operations generalizing w t records with
  | nil =>
      cases hok
      exact ⟨records, hrep⟩
  | cons operation operations ih =>
      simp only [WAL.performAll, Option.bind_eq_some_iff] at hok
      obtain ⟨middle, hfirst, hrest⟩ := hok
      obtain ⟨records', hnext⟩ :=
        hrep.perform hregular.1 (fun hm => (hmonotone hm).1) hmeets.1 hfirst
      exact ih hnext hregular.2 (fun hm => (hmonotone hm).2) hmeets.2 hrest

theorem openWAL_created {identity : Identity} {size : Nat} {recovered : RecoveredState}
    (hopen : openWAL json [] identity size = .ok (w, recovered)) :
    (blank identity.clusterID = false ∧ blank identity.nodeID = false) ∧
      segmentHeaderSize + frameHeaderSize < size ∧ recovered = { identity := identity } ∧
      ∃ first, ({ identity := identity, segmentSize := size } : WAL).appendRecord .clusterIdentity
        identity.clusterID = .ok first ∧
        first.appendRecord .nodeIdentity identity.nodeID = .ok w := by
  simp only [openWAL] at hopen
  split at hopen
  · simp at hopen
  next hnamed =>
    split at hopen
    · simp at hopen
    next hsize =>
      simp only [openSegments] at hopen
      split at hopen
      · simp at hopen
      next first hfirst =>
        split at hopen
        · simp at hopen
        next second hsecond =>
          cases hopen
          exact ⟨by simpa using hnamed, Nat.not_le.mp hsize, rfl, first, hfirst, hsecond⟩

theorem represents_initial {identity : Identity} {size : Nat} {r : RecoveredState}
    (hstrings : ValidUTF8 identity.clusterID ∧ ValidUTF8 identity.nodeID)
    (hok : openWAL json [] identity size = .ok (w, r)) :
    Represents json monotone w (Trace.initial identity)
      [.clusterIdentity identity.clusterID, .nodeIdentity identity.nodeID] := by
  obtain ⟨hnamed, -, -, first, hfirst, hsecond⟩ := openWAL_created hok
  have hempty : Stored json { identity := identity, segmentSize := size } [] :=
    ⟨[], [], ⟨rfl, by simp [writtenSegment], by simp [blockRecords]⟩,
      ⟨by simp, paired_plain (by simp)⟩, rfl⟩
  have hone := hempty.append (.clusterIdentity identity.clusterID) (by simp [Record.Plain])
    (fun _ => trivial) hfirst
  have htwo := hone.append (.nodeIdentity identity.nodeID) (by simp [Record.Plain])
    (fun _ => trivial) hsecond
  obtain ⟨_, _, _, rfl⟩ := WAL.appendRecord_files hfirst
  obtain ⟨_, _, _, rfl⟩ := WAL.appendRecord_files hsecond
  refine ⟨htwo, ?_, by simp, fun _ => ⟨rfl, rfl, by simp⟩, ?_, hnamed, hstrings, validUTF8_nil,
    rfl, rfl, rfl, rfl, rfl⟩
  · refine ⟨by simp [Record.Of, Record.CheckpointOK, Trace.initial], ?_, by simp, rfl, rfl, rfl,
      .inr ⟨rfl, [], rfl⟩⟩
    intro s _ _
    exact ⟨[], 0, rfl, Nat.zero_le _, Nat.zero_le _, fun _ => rfl,
      fun hfaithful => absurd (List.forall_mem_nil _) hfaithful⟩
  · exact ⟨trivial, Nat.two_pow_pos 64, Nat.zero_le _, Nat.zero_le _, Nat.zero_le _⟩

end Reopen

/-! ## A codec for checkpoints -/

def encodeString : Bytes → Bytes
  | [] => [0]
  | byte :: bytes => 1 :: byte :: encodeString bytes

def decodeString : Bytes → Option (Bytes × Bytes)
  | 1 :: byte :: bytes => (decodeString bytes).map fun found => (byte :: found.1, found.2)
  | 0 :: bytes => some ([], bytes)
  | _ => none

theorem decodeString_encodeString (bytes rest : Bytes) :
    decodeString (encodeString bytes ++ rest) = some (bytes, rest) := by
  induction bytes with
  | nil => simp [encodeString, decodeString]
  | cons byte bytes ih => simp [encodeString, decodeString, ih]

/-- A codec that satisfies what is assumed of `encoding/json`. -/
def escapedCheckpoints : CheckpointJSON where
  marshal c :=
    encodeString c.identity.clusterID ++ (encodeString c.identity.nodeID ++
      (encodeString c.hardState.votedFor ++ (putUint64 c.hardState.term ++
        (putUint64 c.commitIndex ++ (putUint64 c.snapshotIndex ++
          (putUint64 c.snapshotTerm ++ putUint64 c.truncateFrom))))))
  unmarshal bytes := do
    let (clusterID, bytes) ← decodeString bytes
    let (nodeID, bytes) ← decodeString bytes
    let (votedFor, bytes) ← decodeString bytes
    return {
      identity := ⟨clusterID, nodeID⟩
      hardState := ⟨uint64 (slice bytes 0 8), votedFor⟩
      commitIndex := uint64 (slice bytes 8 16)
      snapshotIndex := uint64 (slice bytes 16 24)
      snapshotTerm := uint64 (slice bytes 24 32)
      truncateFrom := uint64 (slice bytes 32 40) }
  unmarshal_marshal c _ := by
    simp [decodeString_encodeString, slice, List.drop_append, List.drop_of_length_le,
      List.take_of_length_le]

/-! ## Results -/

/--
Open a new directory, make the calls, close, and open it again.  `none` when one
of the calls fails.
-/
def closeAndReopen (json : CheckpointJSON) (identity : Identity) (size size' : Nat)
    (operations : List Operation) : Option (WAL × Except OpenError (WAL × RecoveredState)) :=
  match openWAL json [] identity size with
  | .error _ => none
  | .ok (w, _) =>
      (w.performAll json operations).map fun w =>
        (w, openWAL json w.directory identity size')

theorem Trace.along_append {P : Trace → Operation → Prop} {t : Trace}
    {left right : List Operation} :
    t.Along P (left ++ right) ↔ t.Along P left ∧ (t.performAll left).Along P right := by
  induction left generalizing t with
  | nil => simp [Along, performAll]
  | cons operation left ih =>
      simp only [List.cons_append, Along, ih, performAll, List.foldl_cons, and_assoc]

theorem Trace.performAll_identity (t : Trace) (operations : List Operation) :
    (t.performAll operations).live.identity = t.live.identity := by
  induction operations generalizing t with
  | nil => rfl
  | cons operation operations ih => exact (ih _).trans (t.perform_identity operation)

def sampleIdentity : Identity := ⟨[99], [110]⟩

def sampleEntry (index term : UInt64) : LogEntry := { index := index, term := term, type := 1 }

theorem sampleIdentity_valid :
    ValidUTF8 sampleIdentity.clusterID ∧ ValidUTF8 sampleIdentity.nodeID :=
  ⟨⟨['c'], rfl⟩, ⟨['n'], rfl⟩⟩

def reopenedLog (operations : List Operation) : Option (Option (List LogEntry)) :=
  (closeAndReopen escapedCheckpoints sampleIdentity 1024 1024 operations).map fun closed =>
    closed.2.toOption.map fun opened => opened.2.log

theorem reopenedLog_ok {operations : List Operation} {log : List LogEntry}
    (h : reopenedLog operations = some (some log)) :
    ∃ w w' recovered, closeAndReopen escapedCheckpoints sampleIdentity 1024 1024 operations =
      some (w, .ok (w', recovered)) ∧ recovered.log = log := by
  obtain ⟨⟨w, outcome⟩, hrun, hlog⟩ := Option.map_eq_some_iff.mp h
  cases outcome with
  | error e => simp [Except.toOption] at hlog
  | ok opened =>
      obtain ⟨w', recovered⟩ := opened
      exact ⟨w, w', recovered, hrun, by simpa [Except.toOption] using hlog⟩

def replacedBelow : List Operation :=
  [.saveHardState ⟨1, [110]⟩, .saveLogEntries [sampleEntry 1 1, sampleEntry 2 1],
    .truncateLog 2, .saveLogEntries [sampleEntry 2 2], .saveCommitIndex 2, .compact 2 2,
    .installSnapshot 4 2 false]

/-- A truncation below the checkpoint's index that removed an entry above it. -/
def removedAbove : List Operation :=
  [.saveLogEntries [sampleEntry 1 1, sampleEntry 2 1, sampleEntry 3 1], .truncateLog 2,
    .saveLogEntries [sampleEntry 2 2], .saveCommitIndex 2, .compact 2 2]

/-- A replaced entry that the checkpoint counts as committed but does not cover. -/
def replacedAbove : List Operation :=
  [.saveLogEntries [sampleEntry 1 1, sampleEntry 2 1], .truncateLog 2,
    .saveLogEntries [sampleEntry 2 2], .saveCommitIndex 2, .compact 1 1]

theorem replacedBelow_regular :
    (Trace.initial sampleIdentity).Along Trace.Regular replacedBelow :=
  ⟨⟨['n'], rfl⟩, trivial, trivial, trivial, trivial, ⟨by decide, by decide⟩,
    ⟨by decide, by decide⟩, trivial⟩

theorem removedAbove_regular :
    (Trace.initial sampleIdentity).Along Trace.Regular removedAbove :=
  ⟨trivial, trivial, trivial, trivial, ⟨by decide, by decide⟩, trivial⟩

theorem replacedBelow_meets :
    (Trace.initial sampleIdentity).Along Trace.Meets (replacedBelow ++ [.reopen 1024]) := by
  decide

theorem replacedBelow_reopens : ∃ w w' recovered,
    closeAndReopen escapedCheckpoints sampleIdentity 1024 1024 replacedBelow =
      some (w, .ok (w', recovered)) := by
  obtain ⟨w, w', recovered, hrun, -⟩ :=
    reopenedLog_ok (show reopenedLog replacedBelow = some (some []) by decide +kernel)
  exact ⟨w, w', recovered, hrun⟩

section Histories

variable {json : CheckpointJSON} {identity : Identity} {size size' : Nat}
  {operations : List Operation}

theorem closeAndReopen_some {w : WAL} {outcome : Except OpenError (WAL × RecoveredState)}
    (hrun : closeAndReopen json identity size size' operations = some (w, outcome)) :
    ∃ opened fresh, openWAL json [] identity size = .ok (opened, fresh) ∧
      opened.performAll json operations = some w ∧
      openWAL json w.directory identity size' = outcome := by
  simp only [closeAndReopen] at hrun
  split at hrun
  · simp at hrun
  · next opened fresh hopen =>
      obtain ⟨closed, hclosed, heq⟩ := Option.map_eq_some_iff.mp hrun
      cases heq
      exact ⟨opened, fresh, hopen, hclosed, rfl⟩

theorem closeAndReopen_represents (monotone : Prop) {w : WAL}
    {outcome : Except OpenError (WAL × RecoveredState)}
    (hstrings : ValidUTF8 identity.clusterID ∧ ValidUTF8 identity.nodeID)
    (hregular : (Trace.initial identity).Along Trace.Regular operations)
    (hmonotone : monotone → (Trace.initial identity).Along Trace.Monotone operations)
    (hmeets : (Trace.initial identity).Along Trace.Meets operations)
    (hrun : closeAndReopen json identity size size' operations = some (w, outcome)) :
    (∃ records, Represents json monotone w ((Trace.initial identity).performAll operations)
      records) ∧ openWAL json w.directory identity size' = outcome := by
  obtain ⟨opened, fresh, hopen, hclosed, houtcome⟩ := closeAndReopen_some hrun
  exact ⟨(represents_initial hstrings hopen).performAll hregular hmonotone hmeets hclosed,
    houtcome⟩

/--
In every history that meets the condition, up to the last reopen, recovery gives
the live state: hard state, commit index, Snapshot position and log.
-/
theorem reopen_recovers_live {w w' : WAL} {recovered : RecoveredState}
    (hstrings : ValidUTF8 identity.clusterID ∧ ValidUTF8 identity.nodeID)
    (hregular : (Trace.initial identity).Along Trace.Regular operations)
    (hmonotone : (Trace.initial identity).Along Trace.Monotone operations)
    (hmeets : (Trace.initial identity).Along Trace.Meets (operations ++ [.reopen size']))
    (hrun : closeAndReopen json identity size size' operations =
      some (w, .ok (w', recovered))) :
    recovered = ((Trace.initial identity).performAll operations).live ∧
      w.Agrees recovered ∧ w.hardState = recovered.hardState := by
  obtain ⟨hmeets, hfaithful, -⟩ := Trace.along_append.mp hmeets
  obtain ⟨⟨records, hrep⟩, hopen⟩ := closeAndReopen_represents True hstrings
    hregular (fun _ => hmonotone) hmeets hrun
  have hidentity := (Trace.initial identity).performAll_identity operations
  have hlive := (hrep.reopen hfaithful (by rw [hidentity]; exact hopen)).1 trivial
  refine ⟨hlive, ?_, ?_⟩
  · rw [hlive]
    exact hrep.agrees
  · rw [hlive]
    exact (hrep.hard trivial).1

theorem reopen_recovers_live_replaced : ∃ w w' recovered,
    closeAndReopen escapedCheckpoints sampleIdentity 1024 1024 replacedBelow =
      some (w, .ok (w', recovered)) ∧
    recovered = ((Trace.initial sampleIdentity).performAll replacedBelow).live := by
  obtain ⟨w, w', recovered, hrun⟩ := replacedBelow_reopens
  exact ⟨w, w', recovered, hrun, (reopen_recovers_live sampleIdentity_valid
    replacedBelow_regular (by decide) replacedBelow_meets hrun).1⟩

/-- The removed entry 3 comes back: the live log is empty. -/
theorem removed_entry_reappears :
    (Trace.initial sampleIdentity).Along Trace.Regular removedAbove ∧
    (Trace.initial sampleIdentity).Along Trace.Monotone removedAbove ∧
    ((Trace.initial sampleIdentity).performAll removedAbove).live.log = [] ∧
    ∃ w w' recovered,
      closeAndReopen escapedCheckpoints sampleIdentity 1024 1024 removedAbove =
        some (w, .ok (w', recovered)) ∧ recovered.log = [sampleEntry 3 1] := by
  exact ⟨removedAbove_regular, by decide, by decide, reopenedLog_ok (by decide +kernel)⟩

/--
The last reopen succeeds already when the past is harmless and the checkpoint
forbids no truncation above the Snapshot.
-/
theorem reopen_succeeds {w : WAL} {outcome : Except OpenError (WAL × RecoveredState)}
    (hstrings : ValidUTF8 identity.clusterID ∧ ValidUTF8 identity.nodeID)
    (hsize : segmentHeaderSize + frameHeaderSize < size')
    (hregular : (Trace.initial identity).Along Trace.Regular operations)
    (hmeets : (Trace.initial identity).Along Trace.Meets operations)
    (hharmless : ((Trace.initial identity).performAll operations).HarmlessAt
      ((Trace.initial identity).performAll operations).live.snapshotIndex)
    (hpermitted : ((Trace.initial identity).performAll operations).Permitted)
    (hrun : closeAndReopen json identity size size' operations = some (w, outcome)) :
    ∃ w' recovered, outcome = .ok (w', recovered) := by
  obtain ⟨⟨records, hrep⟩, hopen⟩ := closeAndReopen_represents False hstrings
    hregular False.elim hmeets hrun
  obtain ⟨w', recovered, hok⟩ := hrep.opens hharmless hpermitted hsize
  rw [(Trace.initial identity).performAll_identity operations] at hok
  exact ⟨w', recovered, hopen.symm.trans hok⟩

theorem reopen_succeeds_replaced :
    (∃ w w' recovered, closeAndReopen escapedCheckpoints sampleIdentity 1024 1024 replacedBelow =
      some (w, .ok (w', recovered))) ∧
    ∃ w w' recovered, closeAndReopen escapedCheckpoints sampleIdentity 1024 1024 removedAbove =
      some (w, .ok (w', recovered)) := by
  have hopens : ∀ operations ∈ [replacedBelow, removedAbove],
      (Trace.initial sampleIdentity).Along Trace.Regular operations →
      ∃ w w' recovered, closeAndReopen escapedCheckpoints sampleIdentity 1024 1024 operations =
        some (w, .ok (w', recovered)) := by
    intro operations hmem hregular
    obtain ⟨⟨w, outcome⟩, hrun, hmeets, hharmless, hpermitted⟩ := (by decide +kernel :
      ∀ operations ∈ [replacedBelow, removedAbove],
        ∃ closed ∈ closeAndReopen escapedCheckpoints sampleIdentity 1024 1024 operations,
          (Trace.initial sampleIdentity).Along Trace.Meets operations ∧
          ((Trace.initial sampleIdentity).performAll operations).HarmlessAt
            ((Trace.initial sampleIdentity).performAll operations).live.snapshotIndex ∧
          ((Trace.initial sampleIdentity).performAll operations).Permitted) operations hmem
    obtain ⟨w', recovered, rfl⟩ := reopen_succeeds sampleIdentity_valid (by decide) hregular
      hmeets hharmless hpermitted hrun
    exact ⟨w, w', recovered, hrun⟩
  exact ⟨hopens _ List.mem_cons_self replacedBelow_regular,
    hopens _ (by simp) removedAbove_regular⟩

/-- The WAL refuses the truncation it recorded itself. -/
theorem recorded_truncation_refused :
    (Trace.initial sampleIdentity).Along Trace.Regular replacedAbove ∧
    ∃ w e, closeAndReopen escapedCheckpoints sampleIdentity 1024 1024 replacedAbove =
      some (w, .error e) := by
  refine ⟨⟨trivial, trivial, trivial, trivial, ⟨by decide, by decide⟩, trivial⟩, ?_⟩
  have hfails : reopenedLog replacedAbove = some none := by decide +kernel
  obtain ⟨⟨w, outcome⟩, hrun, hnone⟩ := Option.map_eq_some_iff.mp hfails
  cases outcome with
  | error e => exact ⟨w, e, hrun⟩
  | ok opened => simp [Except.toOption] at hnone

end Histories

end QuorumKV.Wal
