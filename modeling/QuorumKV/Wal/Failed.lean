import QuorumKV.Wal.Atomic

/-!
# Failed appends

`SaveLogEntries` checks the indexes of a batch before it writes, but the size of
each record only when its turn comes.  A batch that is refused for its indexes or
its first record leaves the WAL as it was; one that is refused at a later record
leaves the records before it in the file, under indexes the WAL assigns again.
-/

namespace QuorumKV.Wal

open Foundation
open QuorumKV.Raft (Bytes)

def WAL.Unwritten (w : WAL) (entries : List LogEntry) : Prop :=
  WAL.orderError w.lastLogIndex entries ≠ none ∨
    ∀ entry ∈ entries.head?, maxRecordSize < (encodeEntryV3 entry).length + 1

def Undamaged (json : CheckpointJSON) (w w' : WAL) : Prop :=
  ∀ later final', w'.performAll json later = some final' →
    ∃ final, w.performAll json later = some final ∧
      ∀ size, reopenedState json final'.directory final'.identity size =
        reopenedState json final.directory final.identity size

section Failed

variable {json : CheckpointJSON} {w w' : WAL} {entries : List LogEntry} {error : WalError}

theorem WAL.appendEntryRecords_error
    (hfailed : w.appendEntryRecords entries = (w', some error)) :
    ∃ written entry rest, entries = written ++ entry :: rest ∧
      w.appendEntryRecords written = (w', none) ∧
      maxRecordSize < (encodeEntryV3 entry).length + 1 := by
  induction entries generalizing w with
  | nil => exact absurd (congrArg Prod.snd hfailed) (by simp [WAL.appendEntryRecords])
  | cons entry entries ih =>
      rw [WAL.appendEntryRecords] at hfailed
      split at hfailed
      next happended =>
        cases hfailed
        refine ⟨[], entry, entries, rfl, rfl, ?_⟩
        rw [WAL.appendRecord] at happended
        split at happended
        next hsize => exact hsize
        next hsize =>
          rw [WAL.appendRecordInSegment, if_neg hsize] at happended
          simp at happended
      next appended happended =>
        obtain ⟨written, large, rest, rfl, hwritten, hlarge⟩ := ih hfailed
        refine ⟨entry :: written, large, rest, rfl, ?_, hlarge⟩
        rw [WAL.appendEntryRecords, happended]
        exact hwritten

theorem WAL.saveLogEntries_unwritten (hunwritten : w.Unwritten entries)
    (hfailed : w.saveLogEntries entries = (w', some error)) : w' = w := by
  rw [WAL.saveLogEntries] at hfailed
  split at hfailed
  · exact (congrArg Prod.fst hfailed).symm
  next hnonempty =>
    split at hfailed
    · exact (congrArg Prod.fst hfailed).symm
    next horder =>
      split at hfailed
      next left _ happended =>
        cases hfailed
        obtain ⟨written, entry, rest, rfl, hwritten, -⟩ := WAL.appendEntryRecords_error happended
        have hlarge := hunwritten.resolve_left (not_not.mpr horder)
        -- The first record is the oversized one, so nothing stands before it.
        cases written with
        | nil => exact (congrArg Prod.fst hwritten).symm
        | cons first written =>
            have hfirst := hlarge first rfl
            rw [WAL.appendEntryRecords, WAL.appendRecord, if_pos hfirst] at hwritten
            exact absurd (congrArg Prod.snd hwritten) (by simp)
      · exact absurd (congrArg Prod.snd hfailed) (by simp)

theorem WAL.saveLogEntries_written (hwritten : ¬ w.Unwritten entries)
    (hfailed : w.saveLogEntries entries = (w', some error)) :
    ∃ written entry rest, entries = written ++ entry :: rest ∧ written ≠ [] ∧
      WAL.orderError w.lastLogIndex entries = none ∧
      w.appendEntryRecords written = (w', none) := by
  rw [WAL.Unwritten, not_or, not_not] at hwritten
  obtain ⟨horder, hfits⟩ := hwritten
  rw [WAL.saveLogEntries] at hfailed
  split at hfailed
  next hempty => exact absurd (by simp [hempty]) hfits
  · rw [horder] at hfailed
    simp only at hfailed
    split at hfailed
    next happended =>
      cases hfailed
      obtain ⟨written, entry, rest, rfl, hwritten, hlarge⟩ :=
        WAL.appendEntryRecords_error happended
      refine ⟨written, entry, rest, rfl, ?_, horder, hwritten⟩
      rintro rfl
      exact hfits fun first hfirst => by
        cases hfirst
        exact hlarge
    · exact absurd (congrArg Prod.snd hfailed) (by simp)

/-- A reopen finds the written part of the refused batch behind the log. -/
theorem WAL.Written.reopen_extended {size : Nat} {opened : WAL × RecoveredState}
    {written : List LogEntry} (h : w.Written)
    (hopen : openWAL json w.directory w.identity size = .ok opened)
    (hcontiguous : Contiguous opened.2.last written)
    (hwritten : w.appendEntryRecords written = (w', none)) :
    reopenedState json w'.directory w'.identity size =
      some { opened.2 with log := opened.2.log ++ written } := by
  obtain ⟨reopened, live⟩ := opened
  obtain ⟨earlier, active, hframes⟩ := h
  obtain ⟨hnamed, hsize, hidentity, -⟩ := openWAL_ok hopen
  have hrecovers := recovers_of_open hopen
  have hleaves : Leaves json w live :=
    ⟨⟨earlier, active, hframes, (hframes.reopened hopen).1⟩, hrecovers.usable, hrecovers.named⟩
  have hextended := hleaves.appendEntryRecords hcontiguous hwritten
  obtain ⟨_, _, _, rfl⟩ := WAL.appendEntryRecords_files hwritten
  rw [reopenedState_eq_some]
  have hopens := hextended.opens hsize
  rw [← hidentity]
  exact ⟨_, hopens⟩

theorem WAL.saveLogEntries_oversized {written : List LogEntry} {entry : LogEntry}
    (horder : WAL.orderError w.lastLogIndex (written ++ [entry]) = none)
    (hwritten : w.appendEntryRecords written = (w', none))
    (hlarge : maxRecordSize < (encodeEntryV3 entry).length + 1) :
    w.saveLogEntries (written ++ [entry]) =
      (w', some (.recordSize ((encodeEntryV3 entry).length + 1))) := by
  have happend : ∀ w : WAL, w.appendEntryRecords written = (w', none) →
      w.appendEntryRecords (written ++ [entry]) =
        (w', some (.recordSize ((encodeEntryV3 entry).length + 1))) := by
    clear horder hwritten
    induction written with
    | nil =>
        rintro w hwritten
        cases hwritten
        rw [List.nil_append, WAL.appendEntryRecords, WAL.appendRecord, if_pos hlarge]
    | cons first written ih =>
        intro w hwritten
        rw [WAL.appendEntryRecords] at hwritten
        rw [List.cons_append, WAL.appendEntryRecords]
        split at hwritten
        · exact absurd (congrArg Prod.snd hwritten) (by simp)
        · exact ih _ hwritten
  rw [WAL.saveLogEntries, if_neg (by simp), horder, happend w hwritten]

end Failed

/--
A failed `SaveLogEntries` that wrote nothing leaves no trace, whatever happened to
the WAL before and whatever follows.  One that wrote part of its batch is damage:
as long as a reopen would find the log the open WAL counts, the next one finds it
longer.
-/
theorem failed_append_undamaged_iff {json : CheckpointJSON} {directory : List Segment}
    {identity : Identity} {size : Nat} {opened : WAL × RecoveredState}
    {operations : List Operation} {w w' : WAL} {entries : List LogEntry} {error : WalError}
    (hopen : openWAL json directory identity size = .ok opened)
    (hreached : opened.1.performAll json operations = some w)
    (hfailed : w.saveLogEntries entries = (w', some error)) :
    (w.Unwritten entries → Undamaged json w w') ∧
      ∀ size reopened, openWAL json w.directory w.identity size = .ok reopened →
        reopened.2.lastIndex = w.lastLogIndex →
        reopened.2.last + entries.length < 2 ^ 64 →
        Undamaged json w w' → w.Unwritten entries := by
  refine ⟨?_, ?_⟩
  · intro hunwritten later final hlater
    rw [WAL.saveLogEntries_unwritten hunwritten hfailed] at hlater
    exact ⟨final, hlater, fun _ => rfl⟩
  · intro size reopened hreopen hlast hroom hundamaged
    by_contra hpartial
    obtain ⟨written, entry, rest, rfl, hnonempty, horder, hwritten⟩ :=
      WAL.saveLogEntries_written hpartial hfailed
    obtain ⟨earlier, active, hframes, -⟩ := (recovers_of_open hopen).frames
    have hfiles : w.Written := WAL.Written.performAll ⟨earlier, active, hframes⟩ hreached
    have hcontiguous : Contiguous reopened.2.last written := by
      have husable := (recovers_of_open hreopen).usable
      rw [← hlast] at horder
      rw [← husable.lastIndex] at hroom ⊢
      exact (contiguous_append.mp (orderError_none horder hroom)).1
    have hextended := hfiles.reopen_extended hreopen hcontiguous hwritten
    -- Nothing follows, and the two reopens already differ.
    obtain ⟨final, hfinal, hsame⟩ := hundamaged [] w' rfl
    cases hfinal
    rw [hsame size, reopenedState, hreopen] at hextended
    have hlog := congrArg RecoveredState.log (Option.some.inj hextended)
    exact hnonempty (List.self_eq_append_right.mp hlog)

def newWAL : Option (WAL × RecoveredState) :=
  (openWAL escapedCheckpoints [] sampleIdentity 1024).toOption

theorem newWAL_ok {opened : WAL × RecoveredState} (h : newWAL = some opened) :
    openWAL escapedCheckpoints [] sampleIdentity 1024 = .ok opened := by
  rw [newWAL] at h
  cases hopen : openWAL escapedCheckpoints [] sampleIdentity 1024 with
  | error e => simp [hopen, Except.toOption] at h
  | ok other =>
      rw [hopen] at h
      cases h
      rfl

/-- After a compaction to index two the batch starts at index four. -/
theorem failed_append_out_of_order : ∃ opened w w' error,
    openWAL escapedCheckpoints [] sampleIdentity 1024 = .ok opened ∧
    opened.1.performAll escapedCheckpoints (replacedBelow.take 6) = some w ∧
    w.saveLogEntries [sampleEntry 4 1] = (w', some error) ∧
    Undamaged escapedCheckpoints w w' := by
  obtain ⟨opened, hnew, w, hreached, horder⟩ : ∃ opened ∈ newWAL,
      ∃ w ∈ opened.1.performAll escapedCheckpoints (replacedBelow.take 6),
        (WAL.orderError w.lastLogIndex [sampleEntry 4 1]).isSome := by decide +kernel
  obtain ⟨error, herror⟩ := Option.isSome_iff_exists.mp horder
  have hfailed : w.saveLogEntries [sampleEntry 4 1] = (w, some error) := by
    simp only [WAL.saveLogEntries, herror, List.cons_ne_nil, if_false]
  exact ⟨opened, w, w, error, newWAL_ok hnew, hreached, hfailed,
    (failed_append_undamaged_iff (newWAL_ok hnew) hreached hfailed).1 (.inl (by simp [herror]))⟩

def oversizedEntry (index : UInt64) : LogEntry :=
  { sampleEntry index 1 with value := List.replicate maxRecordSize 0 }

theorem oversizedEntry_large (index : UInt64) :
    maxRecordSize < (encodeEntryV3 (oversizedEntry index)).length + 1 := by
  rw [encodeEntryV3_length, oversizedEntry, List.length_replicate]
  omega

def savedTwice (opened : WAL × RecoveredState) (entries : List LogEntry) : Option WAL :=
  (opened.1.appendEntryRecords entries).1.performAll escapedCheckpoints [.saveLogEntries entries]

def WAL.recovered (w : WAL) : Option RecoveredState :=
  reopenedState escapedCheckpoints w.directory w.identity 1024

/--
Entry one is written by a batch whose second record is too large, and saved again
when the caller retries without that record.  The directory no longer opens.
-/
theorem failed_append_duplicates : ∃ opened w' error final final',
    openWAL escapedCheckpoints [] sampleIdentity 1024 = .ok opened ∧
    opened.1.saveLogEntries [sampleEntry 1 1, oversizedEntry 2] = (w', some error) ∧
    opened.1.performAll escapedCheckpoints [.saveLogEntries [sampleEntry 1 1]] = some final ∧
    w'.performAll escapedCheckpoints [.saveLogEntries [sampleEntry 1 1]] = some final' ∧
    final.recovered = some { identity := sampleIdentity, log := [sampleEntry 1 1] } ∧
    final'.recovered = none := by
  obtain ⟨opened, hnew, hlast, hwritten, final, hperformed, hrecovered, final', hperformed',
      hrecovered'⟩ : ∃ opened ∈ newWAL, opened.1.lastLogIndex = 0 ∧
        (opened.1.appendEntryRecords [sampleEntry 1 1]).2 = none ∧
        ∃ final ∈ opened.1.performAll escapedCheckpoints [.saveLogEntries [sampleEntry 1 1]],
          final.recovered = some { identity := sampleIdentity, log := [sampleEntry 1 1] } ∧
        ∃ final' ∈ savedTwice opened [sampleEntry 1 1], final'.recovered = none := by
    decide +kernel
  have horder : WAL.orderError opened.1.lastLogIndex ([sampleEntry 1 1] ++ [oversizedEntry 2]) =
      none := by
    rw [hlast]
    rfl
  have hsaved := WAL.saveLogEntries_oversized horder (Prod.ext rfl hwritten)
    (oversizedEntry_large 2)
  exact ⟨opened, _, _, final, final', newWAL_ok hnew, hsaved, hperformed, hperformed',
    hrecovered, hrecovered'⟩

end QuorumKV.Wal
