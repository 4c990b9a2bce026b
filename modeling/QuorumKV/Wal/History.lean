import QuorumKV.Wal.Replay

/-!
# Histories of WAL calls

A history is a list of calls on one WAL, with any number of clean reopens.  Its
meaning is the live state: what the calls were told to keep.  `Trace` adds to
the live state the two facts about the past that recovery depends on, namely
the truncations made so far (with how far the log has grown since each) and the
commit index of the newest checkpoint.
-/

namespace QuorumKV.Wal

inductive Operation where
  | saveHardState (state : HardState)
  | saveLogEntries (entries : List LogEntry)
  | truncateLog (first : UInt64)
  | saveCommitIndex (index : UInt64)
  | compact (snapshotIndex snapshotTerm : UInt64)
  | installSnapshot (snapshotIndex snapshotTerm : UInt64) (retainSuffix : Bool)
  | reopen (segmentSize : Nat)
  deriving DecidableEq, Repr

def Outcome.succeeded : Outcome → Option WAL
  | (w, none) => some w
  | (_, some _) => none

namespace WAL

def perform (json : CheckpointJSON) (w : WAL) : Operation → Option WAL
  | .saveHardState state => Outcome.succeeded (w.saveHardState state)
  | .saveLogEntries entries => Outcome.succeeded (w.saveLogEntries entries)
  | .truncateLog first => Outcome.succeeded (w.truncateLog first)
  | .saveCommitIndex index => Outcome.succeeded (w.saveCommitIndex index)
  | .compact index term => Outcome.succeeded (w.compact json index term)
  | .installSnapshot index term retain =>
      Outcome.succeeded (w.installSnapshot json index term retain)
  | .reopen segmentSize =>
      match openWAL json w.directory w.identity segmentSize with
      | .error _ => none
      | .ok (w, _) => some w

def performAll (json : CheckpointJSON) (w : WAL) : List Operation → Option WAL
  | [] => some w
  | operation :: operations =>
      (w.perform json operation).bind fun w => w.performAll json operations

end WAL

/-- What a call makes of the live state: its meaning, not its representation. -/
def RecoveredState.perform (live : RecoveredState) : Operation → RecoveredState
  | .saveHardState state => { live with hardState := state }
  | .saveLogEntries entries => { live with log := live.log ++ entries }
  | .truncateLog first =>
      { live with log := live.log.filter fun entry => entry.index < first }
  | .saveCommitIndex index => { live with commitIndex := index }
  | .compact index term =>
      { live with
        snapshotIndex := index
        snapshotTerm := term
        log := live.log.filter fun entry => index < entry.index }
  | .installSnapshot index term retain =>
      { live with
        snapshotIndex := index
        snapshotTerm := term
        commitIndex := max live.commitIndex index
        log := if retain then live.log.filter fun entry => index < entry.index else [] }
  | .reopen _ => live

/--
A truncation that was recorded: from `first`, in a log that ended at `last` and
that has since reached no further than `reached`.
-/
structure Cut where
  first : UInt64
  last : UInt64
  reached : UInt64 := 0
  deriving DecidableEq, Repr

def Cut.extend (last : UInt64) (cut : Cut) : Cut := { cut with reached := max cut.reached last }

structure Trace where
  live : RecoveredState
  cuts : List Cut := []
  checkpointCommit : UInt64 := 0
  deriving DecidableEq, Repr

/-- Terms do not decrease, and a vote once cast in a term stays. -/
def HardState.Follows (before after : HardState) : Prop :=
  before.term < after.term ∨
    (before.term = after.term ∧ (before.votedFor = [] ∨ before.votedFor = after.votedFor))

namespace Trace

def initial (identity : Identity) : Trace := { live := { identity := identity } }

def cut (t : Trace) : Operation → List Cut
  | .truncateLog first => [⟨first, t.live.lastIndex, 0⟩]
  | .installSnapshot index _ retain =>
      if retain = false ∧ index < t.live.lastIndex then [⟨index + 1, t.live.lastIndex, 0⟩] else []
  | _ => []

def perform (t : Trace) (operation : Operation) : Trace :=
  { live := t.live.perform operation
    cuts := (t.cuts ++ t.cut operation).map (Cut.extend (t.live.perform operation).lastIndex)
    checkpointCommit :=
      match operation with
      | .compact .. => t.live.commitIndex
      | .installSnapshot index .. => max t.live.commitIndex index
      | _ => t.checkpointCommit }

def performAll (t : Trace) (operations : List Operation) : Trace :=
  operations.foldl perform t

/-- Every truncation at or below `s` found nothing above `s` to remove. -/
def FaithfulAt (t : Trace) (s : UInt64) : Prop :=
  ∀ cut ∈ t.cuts, cut.first ≤ s → cut.last ≤ s

/-- Every truncation at or below `s` found nothing above `s`, or nothing was put there since. -/
def HarmlessAt (t : Trace) (s : UInt64) : Prop :=
  ∀ cut ∈ t.cuts, cut.first ≤ s → cut.last ≤ s ∨ cut.reached ≤ s ∧ cut.last + 1 ≠ 0

/-- No truncation above the Snapshot reaches into the newest checkpoint's commit. -/
def Permitted (t : Trace) : Prop :=
  ∀ cut ∈ t.cuts, t.live.snapshotIndex < cut.first → t.checkpointCommit < cut.first

instance (t : Trace) (s : UInt64) : Decidable (t.FaithfulAt s) :=
  inferInstanceAs (Decidable (∀ cut ∈ t.cuts, _))

instance (t : Trace) (s : UInt64) : Decidable (t.HarmlessAt s) :=
  inferInstanceAs (Decidable (∀ cut ∈ t.cuts, _))

instance (t : Trace) : Decidable t.Permitted :=
  inferInstanceAs (Decidable (∀ cut ∈ t.cuts, _))

def Along (P : Trace → Operation → Prop) (t : Trace) : List Operation → Prop
  | [] => True
  | operation :: operations => P t operation ∧ Along P (t.perform operation) operations

/-- Snapshot indexes do not decrease, Snapshot terms are not zero, votes are UTF-8. -/
def Regular (t : Trace) : Operation → Prop
  | .saveHardState state => ValidUTF8 state.votedFor
  | .compact index term => t.live.snapshotIndex ≤ index ∧ term ≠ 0
  | .installSnapshot index term _ => t.live.snapshotIndex ≤ index ∧ term ≠ 0
  | _ => True

def Monotone (t : Trace) : Operation → Prop
  | .saveHardState state => HardState.Follows t.live.hardState state
  | _ => True

/--
The condition under which recovery is faithful: no append runs past the last
index, and at every reopen no truncation at or below the Snapshot index had
removed an entry above it.
-/
def Meets (t : Trace) : Operation → Prop
  | .saveLogEntries entries => t.live.lastIndex.toNat + entries.length < 2 ^ 64
  | .reopen _ => t.FaithfulAt t.live.snapshotIndex
  | _ => True

instance (t : Trace) : ∀ operation, Decidable (t.Monotone operation)
  | .saveHardState state =>
      inferInstanceAs (Decidable (t.live.hardState.term < state.term ∨
        (t.live.hardState.term = state.term ∧ (t.live.hardState.votedFor = [] ∨
          t.live.hardState.votedFor = state.votedFor))))
  | .saveLogEntries _ | .truncateLog _ | .saveCommitIndex _ | .compact .. | .installSnapshot ..
  | .reopen _ => isTrue trivial

instance (t : Trace) : ∀ operation, Decidable (t.Meets operation)
  | .saveLogEntries entries =>
      inferInstanceAs (Decidable (t.live.lastIndex.toNat + entries.length < 2 ^ 64))
  | .reopen _ => inferInstanceAs (Decidable (t.FaithfulAt t.live.snapshotIndex))
  | .saveHardState _ | .truncateLog _ | .saveCommitIndex _ | .compact ..
  | .installSnapshot .. => isTrue trivial

instance decidableAlong {P : Trace → Operation → Prop} [∀ t operation, Decidable (P t operation)] :
    ∀ (t : Trace) (operations : List Operation), Decidable (t.Along P operations)
  | _, [] => isTrue trivial
  | t, operation :: operations =>
      @instDecidableAnd _ _ _ (decidableAlong (t.perform operation) operations)

end Trace

/-! ## Contiguous logs -/

def Contiguous : Nat → List LogEntry → Prop
  | _, [] => True
  | base, entry :: entries => entry.index.toNat = base + 1 ∧ Contiguous (base + 1) entries

theorem contiguous_append {base : Nat} {left right : List LogEntry} :
    Contiguous base (left ++ right) ↔
      Contiguous base left ∧ Contiguous (base + left.length) right := by
  induction left generalizing base with
  | nil => simp [Contiguous]
  | cons entry left ih =>
      simp only [List.cons_append, Contiguous, ih, List.length_cons, and_assoc]
      rw [Nat.add_right_comm, Nat.add_assoc base]

theorem Contiguous.index_eq {base : Nat} {log : List LogEntry} (h : Contiguous base log)
    {offset : Nat} {entry : LogEntry} (hentry : log[offset]? = some entry) :
    entry.index.toNat = base + offset + 1 := by
  induction log generalizing base offset with
  | nil => simp at hentry
  | cons first log ih =>
      cases offset with
      | zero =>
          cases hentry
          exact h.1
      | succ offset =>
          have := ih h.2 hentry
          omega

theorem Contiguous.above {base : Nat} {log : List LogEntry} (h : Contiguous base log) :
    ∀ entry ∈ log, base < entry.index.toNat := by
  intro entry hentry
  obtain ⟨offset, hoffset⟩ := List.mem_iff_getElem?.mp hentry
  rw [h.index_eq hoffset]
  omega

theorem Contiguous.filter_above {base : Nat} {log : List LogEntry}
    (h : Contiguous base log) (s : UInt64) :
    log.filter (fun entry => s < entry.index) = log.drop (s.toNat - base) := by
  induction log generalizing base with
  | nil => simp
  | cons entry log ih =>
      have hindex := h.1
      by_cases hs : s < entry.index
      · have hzero : s.toNat - base = 0 := by
          rw [UInt64.lt_iff_toNat_lt] at hs
          omega
        have hrest : s.toNat - (base + 1) = 0 := by omega
        simp [hs, hzero, ih h.2, hrest]
      · have hsucc : s.toNat - base = (s.toNat - (base + 1)) + 1 := by
          rw [UInt64.lt_iff_toNat_lt] at hs
          omega
        rw [hsucc, List.drop_succ_cons, ← ih h.2]
        simp [hs]

theorem Contiguous.filter_below {base : Nat} {log : List LogEntry}
    (h : Contiguous base log) (first : UInt64) :
    log.filter (fun entry => entry.index < first) = log.take (first.toNat - base - 1) := by
  induction log generalizing base with
  | nil => simp
  | cons entry log ih =>
      have hindex := h.1
      by_cases hfirst : entry.index < first
      · have hsucc : first.toNat - base - 1 = (first.toNat - (base + 1) - 1) + 1 := by
          rw [UInt64.lt_iff_toNat_lt] at hfirst
          omega
        rw [hsucc, List.take_succ_cons, ← ih h.2]
        simp [hfirst]
      · have hzero : first.toNat - base - 1 = 0 := by
          rw [UInt64.lt_iff_toNat_lt] at hfirst
          omega
        have hrest : first.toNat - (base + 1) - 1 = 0 := by omega
        simp [hfirst, hzero, ih h.2, hrest]

theorem Contiguous.drop {base : Nat} {log : List LogEntry} (h : Contiguous base log)
    (count : Nat) (hcount : count ≤ log.length) : Contiguous (base + count) (log.drop count) := by
  have hsplit := List.take_append_drop count log
  rw [← hsplit, contiguous_append] at h
  simpa [Nat.min_eq_left hcount] using h.2

theorem Contiguous.take {base : Nat} {log : List LogEntry} (h : Contiguous base log)
    (count : Nat) : Contiguous base (log.take count) := by
  have hsplit := List.take_append_drop count log
  rw [← hsplit, contiguous_append] at h
  exact h.1

end QuorumKV.Wal
