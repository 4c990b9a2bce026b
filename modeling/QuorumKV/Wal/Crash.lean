import QuorumKV.Wal.Appending

/-!
# Crashes

What a crash leaves of the last file.  Behind a whole header the repair is exact:
the directory opens as its complete frames do, and goes on from there.  A file
whose own header is incomplete is not repaired, and neither is a directory without
both identity records.
-/

namespace QuorumKV.Wal

open Foundation
open QuorumKV.Raft (Bytes)

/-! ## Torn files -/

section Torn

variable {json : CheckpointJSON} {identity : Identity} {size : Nat} {w : WAL}
  {live : RecoveredState} {segments : List Segment} {number : Nat}

theorem openWAL_congr {directory other : List Segment} (hdirectory : directory ≠ [])
    (hother : other ≠ [])
    (hrecover : recoverSegments json directory = recoverSegments json other) :
    openWAL json directory identity size = openWAL json other identity size := by
  obtain ⟨first, rest, rfl⟩ := List.exists_cons_of_ne_nil hdirectory
  obtain ⟨first', rest', rfl⟩ := List.exists_cons_of_ne_nil hother
  simp only [openWAL, openSegments, hrecover]
  cases hfound : recoverSegments json (first' :: rest') with
  | error e => rfl
  | ok read =>
      obtain ⟨-, -, -, hnumbers, -⟩ := recoverSegments_parsed hfound
      have hfiles : read.2 ≠ [] := by
        intro hnil
        rw [hnil] at hnumbers
        simp at hnumbers
      simp only [List.getLast?_eq_some_getLast hfiles, Option.getD_some]

theorem newestCompactionCheckpoint_last {contents contents' : Bytes}
    (hscan : ∀ found, scanSegmentFrames contents true (visitCheckpoint json) found =
      scanSegmentFrames contents' true (visitCheckpoint json) found)
    (found : CompactionCheckpoint) :
    newestCompactionCheckpoint json found (segments ++ [⟨number, contents⟩]) =
      newestCompactionCheckpoint json found (segments ++ [⟨number, contents'⟩]) := by
  induction segments generalizing found with
  | nil => simp [newestCompactionCheckpoint, hscan]
  | cons segment segments ih =>
      have hmore : ∀ last : Segment, (segments ++ [last]).isEmpty = false := by simp
      simp only [List.cons_append, newestCompactionCheckpoint, hmore, ih]

theorem readSegments_last {contents contents' : Bytes}
    (hread : ∀ state, readSegment json contents true state =
      readSegment json contents' true state) (state : RecoveredState) :
    readSegments json state (segments ++ [⟨number, contents⟩]) =
      readSegments json state (segments ++ [⟨number, contents'⟩]) := by
  induction segments generalizing state with
  | nil => simp [readSegments, hread]
  | cons segment segments ih =>
      have hmore : ∀ last : Segment, (segments ++ [last]).isEmpty = false := by simp
      simp only [List.cons_append, readSegments, hmore, ih]

theorem recoverSegments_last {contents contents' : Bytes}
    (hscan : ∀ found, scanSegmentFrames contents true (visitCheckpoint json) found =
      scanSegmentFrames contents' true (visitCheckpoint json) found)
    (hread : ∀ state, readSegment json contents true state =
      readSegment json contents' true state) :
    recoverSegments json (segments ++ [⟨number, contents⟩]) =
      recoverSegments json (segments ++ [⟨number, contents'⟩]) := by
  simp only [recoverSegments, newestCompactionCheckpoint_last hscan, readSegments_last hread]

/-- A torn last file opens as its complete frames do, and fails as they do. -/
theorem openWAL_torn {frames : List Frame} {torn : Bytes} (hsized : ∀ f ∈ frames, f.Sized)
    (htorn : Torn torn) :
    openWAL json (segments ++ [⟨number, framedSegment frames ++ torn⟩]) identity size =
      openWAL json (segments ++ [⟨number, framedSegment frames⟩]) identity size := by
  refine openWAL_congr (by simp) (by simp) (recoverSegments_last (fun found => ?_) fun state => ?_)
  · have hwhole := scanSegmentFrames_frames (visitCheckpoint json) hsized true (.inl rfl) found
    rw [List.append_nil] at hwhole
    rw [hwhole, scanSegmentFrames_frames (visitCheckpoint json) hsized true (.inr ⟨rfl, htorn⟩)]
  · have hwhole := readSegment_frames json hsized true (.inl rfl) state
    rw [List.append_nil] at hwhole
    rw [hwhole, readSegment_frames json hsized true (.inr ⟨rfl, htorn⟩)]

/-- The directory whose last file keeps only its first `cut` bytes. -/
def WAL.cutTo (w : WAL) (cut : Nat) : List Segment :=
  w.segments ++ [⟨w.segment, w.contents.take cut⟩]

def WAL.holding (w : WAL) (frames : List Frame) : List Segment :=
  w.segments ++ [⟨w.segment, framedSegment frames⟩]

theorem WAL.Frames.openWAL_cut {earlier active : List Frame} {cut : Nat}
    (h : w.Frames earlier active) (hcut : segmentHeaderSize ≤ cut) (json : CheckpointJSON)
    (identity : Identity) (size : Nat) :
    openWAL json (w.cutTo cut) identity size =
      openWAL json (w.holding (completeFrames (cut - segmentHeaderSize) active)) identity size := by
  obtain ⟨torn, htorn, htake⟩ := framedSegment_take h.sized hcut
  rw [WAL.cutTo, WAL.holding, h.contents, htake]
  exact openWAL_torn (fun f hf => h.sized f (completeFrames_subset _ _ hf)) htorn

theorem WAL.Frames.holding {earlier active : List Frame} (h : w.Frames earlier active)
    (size : Nat) :
    Framed (w.holding (completeFrames size active)) (earlier ++ completeFrames size active) :=
  h.segments.append
    (Framed.single w.segment fun f hf => h.sized f (completeFrames_subset _ _ hf))

theorem openWAL_directory {directory : List Segment} {frames : List Frame} {w' : WAL}
    {recovered : RecoveredState} (hframed : Framed directory frames) (hdirectory : directory ≠ [])
    (hopen : openWAL json directory identity size = .ok (w', recovered)) :
    w'.directory = directory := by
  obtain ⟨-, -, -, ⟨hnil, -⟩ | ⟨files, last, hrecover, rfl⟩⟩ := openWAL_ok hopen
  · exact absurd hnil hdirectory
  · exact ((recoverSegments_framed hframed _).mp hrecover).1

theorem openWAL_framed {directory : List Segment} {frames : List Frame}
    {recovered : RecoveredState} (hframed : Framed directory frames) (hdirectory : directory ≠ []) :
    (∃ w, openWAL json directory identity size = .ok (w, recovered)) ↔
      (blank identity.clusterID = false ∧ blank identity.nodeID = false) ∧
        segmentHeaderSize + frameHeaderSize < size ∧ recovered.identity = identity ∧
        FramesRecover json frames recovered := by
  constructor
  · rintro ⟨w, hopen⟩
    obtain ⟨hnamed, hsize, hidentity, ⟨hnil, -⟩ | ⟨files, last, hrecover, -⟩⟩ := openWAL_ok hopen
    · exact absurd hnil hdirectory
    · exact ⟨hnamed, hsize, hidentity, ((recoverSegments_framed hframed _).mp hrecover).2⟩
  · rintro ⟨hnamed, hsize, hidentity, hrecovers⟩
    have hrecover := (recoverSegments_framed hframed (recovered, directory)).mpr ⟨rfl, hrecovers⟩
    obtain ⟨first, rest, rfl⟩ := List.exists_cons_of_ne_nil hdirectory
    refine ⟨resumeWAL identity size recovered (first :: rest).dropLast
      ((first :: rest).getLast?.getD first), ?_⟩
    rw [openWAL, hnamed.1, hnamed.2, if_neg (by simp), if_neg (Nat.not_le.mpr hsize)]
    simp only [openSegments, hrecover, hidentity, ne_eq, not_true, if_false]

theorem completeFrames_front (size : Nat) (frames : List Frame) :
    completeFrames size frames <+: frames := by
  induction frames generalizing size with
  | nil => exact List.prefix_refl []
  | cons f frames ih =>
      rw [completeFrames]
      split
      · exact List.prefix_cons_inj f |>.mpr (ih _)
      · simp

theorem completeFrames_append {size : Nat} {left : List Frame} (right : List Frame)
    (hsize : (left.flatMap Frame.bytes).length ≤ size) :
    completeFrames size (left ++ right) =
      left ++ completeFrames (size - (left.flatMap Frame.bytes).length) right := by
  induction left generalizing size with
  | nil => simp
  | cons f left ih =>
      rw [List.flatMap_cons, List.length_append] at hsize
      rw [List.cons_append, completeFrames, if_pos (by omega), ih (by omega), List.flatMap_cons,
        List.length_append, Nat.sub_sub, List.cons_append]

/-! ## An interrupted append -/

def entryFrame (entry : LogEntry) : Frame :=
  ⟨RecordType.logEntryV3.toByte, encodeEntryV3 entry⟩

theorem WAL.Frames.appendEntryRecords {w' : WAL} {earlier active : List Frame}
    {entries : List LogEntry} (h : w.Frames earlier active)
    (hok : w.appendEntryRecords entries = (w', none)) :
    (w'.segment = w.segment ∧ w'.Frames earlier (active ++ entries.map entryFrame)) ∨
      ∃ count ≤ entries.length,
        w'.Frames (earlier ++ active ++ (entries.take count).map entryFrame)
          ((entries.drop count).map entryFrame) := by
  induction entries generalizing w earlier active with
  | nil =>
      cases hok
      exact .inl ⟨rfl, by simpa using h⟩
  | cons entry entries ih =>
      rw [WAL.appendEntryRecords] at hok
      split at hok
      · simp at hok
      next appended happended =>
        rcases h.append happended with ⟨hsegment, hkeep⟩ | hroll
        · rcases ih (by exact hkeep.congr rfl rfl) hok with ⟨hsame, hall⟩ | ⟨count, hcount, hlater⟩
          · exact .inl ⟨hsame.trans hsegment, by simpa [entryFrame] using hall⟩
          · refine .inr ⟨count + 1, by simpa using hcount, ?_⟩
            simpa [entryFrame] using hlater
        · rcases ih (by exact hroll.congr rfl rfl) hok with ⟨-, hall⟩ | ⟨count, hcount, hlater⟩
          · exact .inr ⟨0, by simp, by simpa [entryFrame] using hall⟩
          · refine .inr ⟨count + 1, by simpa using hcount, ?_⟩
            simpa [entryFrame] using hlater

theorem WAL.Frames.interrupted {w' : WAL} {earlier active : List Frame}
    {entries : List LogEntry} {cut : Nat} (h : w.Frames earlier active)
    (hok : w.appendEntryRecords entries = (w', none)) (hcut : segmentHeaderSize ≤ cut)
    (hkeep : w'.segment = w.segment → w.offset ≤ cut) :
    ∃ earlier' active', w'.Frames earlier' active' ∧ ∃ count ≤ entries.length,
      earlier' ++ completeFrames (cut - segmentHeaderSize) active' =
        earlier ++ active ++ (entries.take count).map entryFrame := by
  have hfront : ∀ size (others : List LogEntry), ∃ count ≤ others.length,
      completeFrames size (others.map entryFrame) = (others.take count).map entryFrame := by
    intro size others
    have hprefix := completeFrames_front size (others.map entryFrame)
    refine ⟨_, by simpa using hprefix.length_le, ?_⟩
    rw [List.map_take]
    exact List.prefix_iff_eq_take.mp hprefix
  rcases h.appendEntryRecords hok with ⟨hsame, hall⟩ | ⟨started, hstarted, hlater⟩
  · have hoffset := hkeep hsame
    rw [WAL.offset, h.contents, framedSegment, List.length_append, segmentHeader_length] at hoffset
    obtain ⟨count, hcount, heq⟩ := hfront
      (cut - segmentHeaderSize - (active.flatMap Frame.bytes).length) entries
    refine ⟨_, _, hall, count, hcount, ?_⟩
    rw [completeFrames_append _ (by omega), heq, List.append_assoc]
  · obtain ⟨count, hcount, heq⟩ := hfront (cut - segmentHeaderSize) (entries.drop started)
    rw [List.length_drop] at hcount
    refine ⟨_, _, hlater, started + count, by omega, ?_⟩
    rw [heq, List.append_assoc, ← List.map_append, ← List.take_add]

theorem appendEntryRecords_take {w' : WAL} {entries : List LogEntry}
    (hok : w.appendEntryRecords entries = (w', none)) (count : Nat) :
    ∃ w'', w.appendEntryRecords (entries.take count) = (w'', none) := by
  induction entries generalizing w count with
  | nil => exact ⟨w', by simpa using hok⟩
  | cons entry entries ih =>
      cases count with
      | zero => exact ⟨w, rfl⟩
      | succ count =>
          rw [WAL.appendEntryRecords] at hok
          split at hok
          · simp at hok
          next appended happended =>
            obtain ⟨w'', hrest⟩ := ih hok count
            exact ⟨w'', by rw [List.take_succ_cons, WAL.appendEntryRecords, happended]; exact hrest⟩

/--
The first `count` entries of an append survived its interruption: the directory opens as
if only these had been appended, and over a recoverable log they are what follows it.
-/
structure Survives (json : CheckpointJSON) (identity : Identity) (w : WAL)
    (entries : List LogEntry) (directory : List Segment) (count : Nat) : Prop where
  count_le : count ≤ entries.length
  same : ∃ w', w.appendEntryRecords (entries.take count) = (w', none) ∧
    ∀ size recovered, (∃ opened, openWAL json directory identity size = .ok (opened, recovered)) ↔
      ∃ opened, openWAL json w'.directory identity size = .ok (opened, recovered)
  recovered : ∀ live size, Recovers json w live → live.identity = identity →
    live.last + entries.length < 2 ^ 64 → segmentHeaderSize + frameHeaderSize < size →
    ∃ opened, openWAL json directory identity size =
      .ok (opened, { live with log := live.log ++ entries.take count })

theorem WAL.Frames.survives {w' : WAL} {earlier active : List Frame} {entries : List LogEntry}
    {cut : Nat} (h : w.Frames earlier active) (hok : w.saveLogEntries entries = (w', none))
    (hcut : segmentHeaderSize ≤ cut) (hkeep : w'.segment = w.segment → w.offset ≤ cut) :
    ∃ count, Survives json identity w entries (w'.cutTo cut) count := by
  obtain ⟨horder, appended, happended, rfl⟩ := WAL.saveLogEntries_ok hok
  obtain ⟨earlier', active', hframes, count, hcount, heq⟩ := h.interrupted happended hcut hkeep
  obtain ⟨shorter, hshorter⟩ := appendEntryRecords_take happended count
  have hdirectory : Framed shorter.directory
      (earlier ++ active ++ (entries.take count).map entryFrame) := by
    rcases h.appendEntryRecords hshorter with ⟨-, hall⟩ | ⟨started, -, hlater⟩
    · rw [List.append_assoc]
      exact hall.directory
    · have hsplit := hlater.directory
      rwa [List.append_assoc _ (List.map _ _), ← List.map_append, List.take_append_drop] at hsplit
  have hheld := hframes.holding (cut - segmentHeaderSize)
  rw [heq] at hheld
  -- Both directories hold the same frames, so they open alike.
  have hsame : ∀ size recovered,
      (∃ opened, openWAL json (appended.cutTo cut) identity size = .ok (opened, recovered)) ↔
        ∃ opened, openWAL json shorter.directory identity size = .ok (opened, recovered) := by
    intro size recovered
    rw [hframes.openWAL_cut hcut, openWAL_framed hheld (by simp [WAL.holding]),
      openWAL_framed hdirectory (by simp [WAL.directory])]
  refine ⟨count, hcount, ⟨shorter, hshorter, hsame⟩, ?_⟩
  rintro live size hrecovers rfl hroom hsize
  have hcontiguous := hrecovers.contiguous horder hroom
  have hfirst : Contiguous live.last (entries.take count) := hcontiguous.take count
  have hleaves := hrecovers.toLeaves.appendEntryRecords hfirst hshorter
  exact (hsame size _).mpr ⟨_, hleaves.opens hsize⟩

/-! ## A crash while a file is created -/

theorem readSegments_reads_last {segments : List Segment} {last : Segment}
    {state : RecoveredState} {read : RecoveredState × List Segment}
    (hread : readSegments json state (segments ++ [last]) = .ok read) :
    ∃ state' read', readSegment json last.contents true state' = .ok read' := by
  induction segments generalizing state read with
  | nil =>
      rw [List.nil_append, readSegments] at hread
      split at hread
      · simp at hread
      next state' contents hlast => exact ⟨state, _, hlast⟩
  | cons segment segments ih =>
      rw [List.cons_append, readSegments] at hread
      split at hread
      · simp at hread
      · split at hread
        · simp at hread
        next hrest => exact ih hrest

/-- No directory opens whose last file ends within its header. -/
theorem openWAL_header_cut {contents : Bytes} (hshort : contents.length < segmentHeaderSize)
    (opened : WAL × RecoveredState) :
    openWAL json (segments ++ [⟨number, contents⟩]) identity size ≠ .ok opened := by
  intro hopen
  obtain ⟨-, -, -, ⟨hnil, -⟩ | ⟨files, last, hrecover, -⟩⟩ := openWAL_ok hopen
  · simp at hnil
  · rw [recoverSegments] at hrecover
    split at hrecover
    · simp at hrecover
    · split at hrecover
      · simp at hrecover
      next hread =>
        obtain ⟨state, read, hlast⟩ := readSegments_reads_last hread
        rw [readSegment, readSegmentWith, if_pos hshort] at hlast
        simp at hlast

theorem completeFrames_length_lt {size : Nat} {frames : List Frame}
    (hsize : size < (frames.flatMap Frame.bytes).length) :
    (completeFrames size frames).length < frames.length := by
  induction frames generalizing size with
  | nil => simp at hsize
  | cons f frames ih =>
      rw [List.flatMap_cons, List.length_append] at hsize
      rw [completeFrames]
      split
      · have := @ih (size - f.bytes.length) (by omega)
        simp only [List.length_cons]
        omega
      · simp

theorem not_framesRecover_unnamed (identity : Identity) {frames : List Frame}
    {live : RecoveredState}
    (hfront : frames <+: [⟨RecordType.clusterIdentity.toByte, identity.clusterID⟩,
      ⟨RecordType.nodeIdentity.toByte, identity.nodeID⟩])
    (hlength : frames.length < 2) : ¬ FramesRecover json frames live := by
  rintro ⟨⟨checkpoint, hcheckpoint, hreplay⟩, -, hnode⟩
  have hcases : frames = [] ∨
      frames = [⟨RecordType.clusterIdentity.toByte, identity.clusterID⟩] := by
    rw [List.prefix_iff_eq_take] at hfront
    rcases Nat.lt_succ_iff_lt_or_eq.mp hlength with hzero | hone
    · exact .inl (List.length_eq_zero_iff.mp (by omega))
    · rw [hone] at hfront
      exact .inr hfront
  rcases hcases with rfl | rfl
  · cases hcheckpoint
    cases hreplay
    exact hnode rfl
  · cases hcheckpoint
    simp [replayFrames, applyRecord, CompactionCheckpoint.start,
      RecoveredState.applyClusterIdentity] at hreplay
    rw [← hreplay] at hnode
    exact hnode rfl

/-- A state of the files before `w`'s were all written: some file is cut short, and the files
after it do not exist yet. -/
def WAL.Unfinished (w : WAL) (directory : List Segment) : Prop :=
  ∃ before segment after cut, w.directory = before ++ segment :: after ∧
    directory = before ++ [⟨segment.number, segment.contents.take cut⟩] ∧
    (after ≠ [] ∨ cut < segment.contents.length)

theorem framedSegment_ne_nil {frames others : List Frame} (hframes : frames ≠ [])
    (heq : framedSegment frames = framedSegment others) : others ≠ [] := by
  rintro rfl
  obtain ⟨f, rest, rfl⟩ := List.exists_cons_of_ne_nil hframes
  have hlength := congrArg List.length heq
  simp [framedSegment, f.bytes_length, frameHeaderSize] at hlength

/-- Nothing that the first `Open` leaves behind before it is done can be opened. -/
theorem openWAL_unfinished {opened : WAL} {fresh : RecoveredState} {directory : List Segment}
    {size' : Nat} (hopen : openWAL json [] identity size = .ok (opened, fresh))
    (hunfinished : opened.Unfinished directory) (reopened : WAL × RecoveredState) :
    openWAL json directory identity size' ≠ .ok reopened := by
  obtain ⟨-, earlier, active, hframes, hactive, hnew⟩ := openWAL_new hopen
  obtain ⟨before, segment, after, cut, hdirectory, rfl, hcut⟩ := hunfinished
  have hframed := hframes.directory
  rw [hdirectory, hnew] at hframed
  obtain ⟨first, rest, hbefore, hrest, hall⟩ := hframed.split
  obtain _ | ⟨hsized, hafter⟩ := hrest
  rename_i number own later
  rcases Nat.lt_or_ge cut segmentHeaderSize with hshort | hheader
  · exact openWAL_header_cut (by rw [List.length_take]; omega) reopened
  · obtain ⟨torn, htorn, htake⟩ := framedSegment_take hsized hheader
    intro hok
    rw [htake, openWAL_torn (fun f hf => hsized f (completeFrames_subset _ _ hf)) htorn] at hok
    have hkept := hbefore.append (Framed.single number fun f hf =>
      hsized f (completeFrames_subset (cut - segmentHeaderSize) _ hf))
    obtain ⟨-, -, -, hrecovers⟩ := (openWAL_framed hkept (by simp)).mp ⟨reopened.1, hok⟩
    have hfront := completeFrames_front (cut - segmentHeaderSize) own
    have hlengths := congrArg List.length hall
    simp only [List.length_append, List.length_cons, List.length_nil] at hlengths
    refine not_framesRecover_unnamed identity ?_ ?_ hrecovers
    · rw [← hall, List.prefix_append_right_inj]
      exact hfront.trans (List.prefix_append own later)
    · have hle := hfront.length_le
      rw [List.length_append]
      rcases hcut with hmore | hshorter
      · -- The identity of the Node is in a later file.
        have hlater : later ≠ [] := by
          rw [← List.dropLast_concat_getLast hmore] at hafter
          obtain ⟨front, held, -, -, hlast, rfl⟩ := hafter.split_last
          have hactual := congrArg List.getLast? hdirectory
          rw [WAL.directory, List.getLast?_concat, List.getLast?_append, List.getLast?_cons,
            List.getLast?_eq_some_getLast hmore, Option.getD_some, Option.some_or,
            Option.some.injEq] at hactual
          rw [← hactual, hframes.contents] at hlast
          exact List.append_ne_nil_of_right_ne_nil front (framedSegment_ne_nil hactive hlast)
        have := List.length_pos_iff.mpr hlater
        omega
      · simp only [framedSegment, List.length_append, segmentHeader_length] at hshorter
        have := @completeFrames_length_lt (cut - segmentHeaderSize) own (by omega)
        omega

/-! ## Results -/

/--
A torn last file: `Open` does exactly what it does when the file ends with its last
complete frame.  When it succeeds the file ends there, and whatever is appended is
recovered behind it.  An interrupted append comes back as the first of its entries.
-/
theorem torn_tail_recovers {operations : List Operation} {opened : WAL} {fresh : RecoveredState}
    (hopen : openWAL json [] identity size = .ok (opened, fresh))
    (hrun : opened.performAll json operations = some w) :
    (∃ frames, w.contents = framedSegment frames ∧ ∀ cut size', segmentHeaderSize ≤ cut →
      openWAL json (w.cutTo cut) identity size' = openWAL json
        (w.holding (completeFrames (cut - segmentHeaderSize) frames)) identity size' ∧
      ∀ w' recovered, openWAL json (w.cutTo cut) identity size' = .ok (w', recovered) →
        w'.directory = w.holding (completeFrames (cut - segmentHeaderSize) frames) ∧
        AppendsRecovered json w' recovered) ∧
    ∀ entries w' cut, w.saveLogEntries entries = (w', none) → segmentHeaderSize ≤ cut →
      (w'.segment = w.segment → w.offset ≤ cut) →
      ∃ count, Survives json identity w entries (w'.cutTo cut) count := by
  obtain ⟨-, earlier, active, hnew, -⟩ := openWAL_new hopen
  obtain ⟨earlier, active, hframes⟩ : w.Written :=
    WAL.Written.performAll ⟨earlier, active, hnew⟩ hrun
  refine ⟨⟨active, hframes.contents, fun cut size' hcut => ?_⟩, ?_⟩
  · have hcutOpen := hframes.openWAL_cut hcut json identity size'
    refine ⟨hcutOpen, fun w' recovered hopened => ⟨?_, ?_⟩⟩
    · rw [hcutOpen] at hopened
      exact openWAL_directory (hframes.holding _) (by simp [WAL.holding]) hopened
    · exact (recovers_of_open hopened).appendsRecovered
  · intro entries w' cut hok hcut hkeep
    exact hframes.survives hok hcut hkeep

/-- A file that ends within the last of its complete frames reads as the frames before it. -/
theorem torn_tail_recovers_replaced : ∃ opened fresh w frames,
    openWAL escapedCheckpoints [] sampleIdentity 1024 = .ok (opened, fresh) ∧
    opened.performAll escapedCheckpoints replacedBelow = some w ∧
    openWAL escapedCheckpoints (w.cutTo 100) sampleIdentity 1024 =
      openWAL escapedCheckpoints (w.holding (completeFrames 88 frames)) sampleIdentity 1024 := by
  obtain ⟨w, _, _, hrun⟩ := replacedBelow_reopens
  obtain ⟨opened, fresh, hopen, hperformed, -⟩ := closeAndReopen_some hrun
  obtain ⟨frames, -, hcut⟩ := (torn_tail_recovers hopen hperformed).1
  exact ⟨opened, fresh, w, frames, hopen, hperformed, (hcut 100 1024 (by decide)).1⟩

/-- The directory after a crash that wrote `written` bytes of the next file's header. -/
def WAL.rolledTo (w : WAL) (written : Nat) : List Segment :=
  w.directory ++ [⟨w.segment + 1, segmentHeader.take written⟩]

/-- A file with nothing but its header adds nothing, and one with less cannot be opened. -/
theorem WAL.Frames.openWAL_rolled {earlier active : List Frame} (h : w.Frames earlier active)
    {written size' : Nat} {recovered : RecoveredState} (hwritten : written ≤ segmentHeaderSize) :
    (∃ w', openWAL json (w.rolledTo written) identity size' = .ok (w', recovered)) ↔
      written = segmentHeaderSize ∧
        ∃ w', openWAL json w.directory identity size' = .ok (w', recovered) := by
  rcases Nat.lt_or_eq_of_le hwritten with hshort | rfl
  · refine ⟨?_, fun hwhole => absurd hwhole.1 (by omega)⟩
    rintro ⟨w', hopened⟩
    have hlength : (segmentHeader.take written).length < segmentHeaderSize := by
      rw [List.length_take]
      omega
    exact absurd hopened (openWAL_header_cut hlength _)
  · have hheader : segmentHeader.take segmentHeaderSize = framedSegment [] := by
      rw [List.take_of_length_le segmentHeader_length.le]
      simp [framedSegment]
    have hrolled : Framed (w.rolledTo segmentHeaderSize) (earlier ++ active) := by
      have hempty := h.directory.append
        (Framed.single (w.segment + 1) (show ∀ f ∈ ([] : List Frame), f.Sized by simp))
      rwa [List.append_nil, ← hheader] at hempty
    rw [openWAL_framed hrolled (by simp [WAL.rolledTo]),
      openWAL_framed h.directory (by simp [WAL.directory]), eq_self_iff_true, true_and]

/--
After a history that a reopen recovers, a crash inside `createSegment` is survived
exactly when the new file's header is whole: then `Open` recovers the live state, and
what is appended later.  Before the first `Open` has written both identity records
nothing can be opened.
-/
theorem crash_in_createSegment_iff {operations : List Operation} {opened : WAL}
    {fresh : RecoveredState} {size' : Nat}
    (hstrings : ValidUTF8 identity.clusterID ∧ ValidUTF8 identity.nodeID)
    (hsize : segmentHeaderSize + frameHeaderSize < size')
    (hregular : (Trace.initial identity).Along Trace.Regular operations)
    (hmonotone : (Trace.initial identity).Along Trace.Monotone operations)
    (hmeets : (Trace.initial identity).Along Trace.Meets (operations ++ [.reopen size']))
    (hpermitted : ((Trace.initial identity).performAll operations).Permitted)
    (hopen : openWAL json [] identity size = .ok (opened, fresh))
    (hrun : opened.performAll json operations = some w) :
    (∀ written ≤ segmentHeaderSize,
      ((∃ reopened, openWAL json (w.rolledTo written) identity size' = .ok reopened) ↔
        written = segmentHeaderSize) ∧
      ∀ w' recovered, openWAL json (w.rolledTo written) identity size' = .ok (w', recovered) →
        recovered = ((Trace.initial identity).performAll operations).live ∧
          AppendsRecovered json w' recovered) ∧
    ∀ directory reopened, opened.Unfinished directory →
      openWAL json directory identity size' ≠ .ok reopened := by
  obtain ⟨-, earlier, active, hnew, -⟩ := openWAL_new hopen
  obtain ⟨earlier, active, hframes⟩ : w.Written :=
    WAL.Written.performAll ⟨earlier, active, hnew⟩ hrun
  obtain ⟨hmeets, hfaithful, -⟩ := Trace.along_append.mp hmeets
  obtain ⟨records, hrep⟩ := (represents_initial hstrings hopen).performAll hregular
    (fun _ : True => hmonotone) hmeets hrun
  obtain ⟨whole, live, hwhole⟩ := hrep.opens hfaithful.harmless hpermitted hsize
  have hidentity : _ = identity := (Trace.initial identity).performAll_identity operations
  refine ⟨fun written hwritten => ⟨⟨?_, ?_⟩, fun w' recovered hopened => ⟨?_, ?_⟩⟩,
    fun directory reopened hunfinished => openWAL_unfinished hopen hunfinished reopened⟩
  · rintro ⟨⟨w', recovered⟩, hopened⟩
    exact ((hframes.openWAL_rolled hwritten).mp ⟨w', hopened⟩).1
  · intro hheader
    rw [hidentity] at hwhole
    obtain ⟨w', hopened⟩ := (hframes.openWAL_rolled hwritten).mpr ⟨hheader, whole, hwhole⟩
    exact ⟨_, hopened⟩
  · obtain ⟨-, other, hother⟩ := (hframes.openWAL_rolled hwritten).mp ⟨w', hopened⟩
    rw [← hidentity] at hother
    exact (hrep.reopen hfaithful hother).1 trivial
  · exact (recovers_of_open hopened).appendsRecovered

def nearlyFull : List Operation := [.saveHardState ⟨1, [110]⟩]

theorem nearlyFull_rolls : ∃ opened fresh w w' recovered,
    openWAL escapedCheckpoints [] sampleIdentity 64 = .ok (opened, fresh) ∧
    opened.performAll escapedCheckpoints nearlyFull = some w ∧
    openWAL escapedCheckpoints w.directory sampleIdentity 64 = .ok (w', recovered) ∧
    (w.prepareRecordBatch (WAL.recordFrameSize (encodeHardState ⟨2, [110]⟩))).segment =
      w.segment + 1 := by
  obtain ⟨closed, hrun, hclosed⟩ :
      ∃ closed ∈ closeAndReopen escapedCheckpoints sampleIdentity 64 64 nearlyFull,
        closed.2.toOption.isSome ∧ (closed.1.prepareRecordBatch
          (WAL.recordFrameSize (encodeHardState ⟨2, [110]⟩))).segment = closed.1.segment + 1 := by
    decide +kernel
  obtain ⟨opened, fresh, hopen, hperformed, hreopen⟩ := closeAndReopen_some hrun
  cases houtcome : closed.2 with
  | error e => simp [houtcome, Except.toOption] at hclosed
  | ok reopened => exact ⟨opened, fresh, closed.1, reopened.1, reopened.2, hopen, hperformed,
      hreopen.trans houtcome, hclosed.2⟩

theorem crash_in_createSegment_whole : ∃ opened fresh w w' recovered,
    openWAL escapedCheckpoints [] sampleIdentity 64 = .ok (opened, fresh) ∧
    opened.performAll escapedCheckpoints nearlyFull = some w ∧
    openWAL escapedCheckpoints (w.rolledTo segmentHeaderSize) sampleIdentity 64 =
      .ok (w', recovered) ∧ recovered.hardState = ⟨1, [110]⟩ := by
  obtain ⟨opened, fresh, w, -, -, hopen, hperformed, -⟩ := nearlyFull_rolls
  have hregular : (Trace.initial sampleIdentity).Along Trace.Regular nearlyFull :=
    ⟨⟨['n'], rfl⟩, trivial⟩
  have hmeets : (Trace.initial sampleIdentity).Along Trace.Meets (nearlyFull ++ [.reopen 64]) := by
    decide
  obtain ⟨hwritten, -⟩ := crash_in_createSegment_iff sampleIdentity_valid (by decide) hregular
    (by decide) hmeets (by decide) hopen hperformed
  obtain ⟨hopens, hlive⟩ := hwritten segmentHeaderSize le_rfl
  obtain ⟨⟨w', recovered⟩, hrolled⟩ := hopens.mpr rfl
  refine ⟨opened, fresh, w, w', recovered, hopen, hperformed, hrolled, ?_⟩
  rw [(hlive w' recovered hrolled).1]
  rfl

/-- Five header bytes of the file the next call creates: the directory no longer opens. -/
theorem crash_in_createSegment_fails : ∃ opened fresh w w' recovered,
    openWAL escapedCheckpoints [] sampleIdentity 64 = .ok (opened, fresh) ∧
    opened.performAll escapedCheckpoints nearlyFull = some w ∧
    openWAL escapedCheckpoints w.directory sampleIdentity 64 = .ok (w', recovered) ∧
    (w.prepareRecordBatch (WAL.recordFrameSize (encodeHardState ⟨2, [110]⟩))).segment =
      w.segment + 1 ∧
    ∀ reopened, openWAL escapedCheckpoints (w.rolledTo 5) sampleIdentity 64 ≠ .ok reopened := by
  obtain ⟨opened, fresh, w, w', recovered, hopen, hperformed, hreopen, hrolls⟩ := nearlyFull_rolls
  exact ⟨opened, fresh, w, w', recovered, hopen, hperformed, hreopen, hrolls,
    openWAL_header_cut (by decide)⟩

end Torn

end QuorumKV.Wal
