import QuorumKV.Session.Retry
import QuorumKV.Snapshot.File

/-!
# Capturing and restoring the session machine

`snapshot` ranges over Go maps, in any order, and sorts the sessions afterwards.
`Captures` allows every order and every result of `sort.Slice`; the captured state
is nevertheless one, it passes `validateState`, and it restores to the machine it
was captured from.
-/

namespace QuorumKV.Session.SessionMachine

open Raft
open QuorumKV.Snapshot (sessionError validateState)

/-- A state that `snapshot` may return: its sessions were ranged over in `order`. -/
structure Captures (m : SessionMachine) (identity : Snapshot.Identity)
    (includedIndex includedTerm : Nat) (order : List SessionID) (state : Snapshot.State) :
    Prop where
  identity : state.identity = identity
  includedIndex : state.includedIndex = includedIndex
  includedTerm : state.includedTerm = includedTerm
  values : state.values = m.values
  nodup : order.Nodup
  ranged : ∀ id, id ∈ order ↔ id ∈ m.sessions
  sessions : state.sessions.Perm (order.map m.savedSession)
  sorted : state.sessions.Pairwise fun left right => ¬ right.id.bytes < left.id.bytes

section Captures

variable {m : SessionMachine} {identity : Snapshot.Identity} {index term : Nat}
  {order : List SessionID} {state : Snapshot.State}

theorem captures_snapshot (m : SessionMachine) (identity : Snapshot.Identity)
    (index term : Nat) :
    m.Captures identity index term (m.sessions.keys.sort (· ≤ ·))
      (m.snapshot identity index term) := by
  refine ⟨rfl, rfl, rfl, rfl, m.sessions.keys.sort_nodup _, ?_, List.Perm.refl _, ?_⟩
  · intro id
    rw [Finset.mem_sort, Finmap.mem_keys]
  · have hsorted : (m.sessions.keys.sort (· ≤ ·)).Pairwise (· ≤ ·) :=
      m.sessions.keys.pairwise_sort _
    rw [snapshot, List.pairwise_map]
    exact hsorted.imp fun hle => List.not_lt.mpr hle

theorem Captures.eq_snapshot (h : m.Captures identity index term order state) :
    state = m.snapshot identity index term := by
  have hcanonical := captures_snapshot m identity index term
  have horder : order.Perm (m.sessions.keys.sort (· ≤ ·)) :=
    (List.perm_ext_iff_of_nodup h.nodup hcanonical.nodup).mpr fun id => by
      rw [h.ranged, hcanonical.ranged]
  have hperm : state.sessions.Perm (m.snapshot identity index term).sessions :=
    h.sessions.trans (horder.map m.savedSession)
  have hsessions : state.sessions = (m.snapshot identity index term).sessions := by
    refine hperm.eq_of_pairwise ?_ h.sorted hcanonical.sorted
    -- Sessions of one identity are the same record of the machine.
    intro left right hleft hright hle hge
    have hid : left.id.bytes = right.id.bytes :=
      List.le_antisymm (List.not_lt.mp hle) (List.not_lt.mp hge)
    obtain ⟨id, -, rfl⟩ := List.mem_map.mp (h.sessions.subset hleft)
    obtain ⟨id', -, rfl⟩ := List.mem_map.mp (hcanonical.sessions.subset hright)
    have hsame : id = id' := by
      obtain ⟨bytes, _⟩ := id
      obtain ⟨bytes', _⟩ := id'
      cases (show bytes = bytes' from hid)
      rfl
    rw [hsame]
  obtain ⟨identity', index', term', values', sessions'⟩ := state
  have hfields := And.intro h.identity (And.intro h.includedIndex (And.intro h.includedTerm h.values))
  simp only at hfields hsessions
  obtain ⟨rfl, rfl, rfl, rfl⟩ := hfields
  rw [hsessions]
  rfl

end Captures

theorem sessionError_none {seen : List SessionID} {sessions : List Snapshot.Session}
    (hnodup : (sessions.map Snapshot.Session.id).Nodup)
    (hfresh : ∀ session ∈ sessions, session.id ∉ seen) : sessionError seen sessions = none := by
  induction sessions generalizing seen with
  | nil => rfl
  | cons session sessions ih =>
      rw [List.map_cons, List.nodup_cons] at hnodup
      rw [sessionError, if_neg (hfresh session List.mem_cons_self)]
      refine ih hnodup.2 fun other hother hmem => ?_
      rcases List.mem_cons.mp hmem with hsame | hseen
      · exact hnodup.1 (hsame ▸ List.mem_map_of_mem hother)
      · exact hfresh other (List.mem_cons_of_mem _ hother) hseen

def ValidPosition (identity : Snapshot.Identity) (index term : Nat) : Prop :=
  validateState ⟨identity, index, term, ∅, []⟩ = none

theorem validateState_snapshot (m : SessionMachine) {identity : Snapshot.Identity}
    {index term : Nat} (h : ValidPosition identity index term) :
    validateState (m.snapshot identity index term) = none := by
  have hids : ((m.snapshot identity index term).sessions.map Snapshot.Session.id) =
      m.sessions.keys.sort (· ≤ ·) := by
    rw [snapshot, List.map_map]
    exact List.map_id _
  have hsessions : sessionError [] (m.snapshot identity index term).sessions = none :=
    sessionError_none (hids ▸ m.sessions.keys.sort_nodup _) (by simp)
  have hempty : sessionError [] [] = none := rfl
  rw [ValidPosition, validateState, hempty] at h
  rw [validateState, hsessions]
  exact h

def outcomes (m : SessionMachine) : List LogEntry → List ProposalResult
  | [] => []
  | entry :: entries => (m.apply entry).2 :: outcomes (m.apply entry).1 entries

/--
Whatever was applied, under a limit that is not negative: every state `snapshot`
may return restores, into any machine of that limit, to the machine it was taken
from; it is the only one, it is valid, and the restored machine answers every
further entry as the captured one does.
-/
theorem snapshot_loses_nothing {limit : Int} (hlimit : 0 ≤ limit) (entries : List LogEntry)
    {m base : SessionMachine} (hm : m = (newSessionMachine limit).applyAll entries)
    (hbase : base.limit = limit) (identity : Snapshot.Identity) (index term : Nat) :
    (∀ order state, m.Captures identity index term order state →
      base.restore (some state) = .ok m ∧
      (∀ order' state', m.Captures identity index term order' state' → state' = state) ∧
      (ValidPosition identity index term → validateState state = none) ∧
      ∀ restored, base.restore (some state) = .ok restored → ∀ later,
        restored.outcomes later = m.outcomes later ∧
          restored.applyAll later = m.applyAll later) ∧
    ∃ order state, m.Captures identity index term order state := by
  obtain ⟨hactive, hkept, hle⟩ := applyAll_counted limit entries
  rw [← hm] at hactive hkept hle
  rw [max_eq_left hlimit] at hle
  refine ⟨?_, _, _, captures_snapshot m identity index term⟩
  intro order state hcaptures
  have hrestore : base.restore (some state) = .ok m := by
    rw [hcaptures.eq_snapshot, restore_snapshot identity index term (hbase.trans hkept.symm)
      hactive, if_neg (by omega)]
  refine ⟨hrestore, ?_, ?_, ?_⟩
  · intro order' state' hother
    rw [hother.eq_snapshot, hcaptures.eq_snapshot]
  · intro hvalid
    rw [hcaptures.eq_snapshot]
    exact validateState_snapshot m hvalid
  · intro restored hrestored later
    rw [hrestore] at hrestored
    cases hrestored
    exact ⟨rfl, rfl⟩

theorem snapshot_loses_nothing_opened :
    (newSessionMachine 1).restore (some (openedMachine.snapshot ⟨[99], [110], []⟩ 1 1)) =
      .ok openedMachine := by
  have hopened : openedMachine = (newSessionMachine 1).applyAll [openEntry] := rfl
  have hlimit : (newSessionMachine 1).limit = 1 := rfl
  exact ((snapshot_loses_nothing (by decide) [openEntry] hopened hlimit ⟨[99], [110], []⟩ 1 1).1 _ _
    (captures_snapshot _ _ _ _)).1

/-- With a negative limit not even the empty machine can be restored. -/
theorem restore_negative_limit :
    (newSessionMachine (-1)).restore
        (some ((newSessionMachine (-1)).snapshot ⟨[99], [110], []⟩ 1 1)) =
      .error (.activeLimit 0 (-1)) := by
  rw [restore_snapshot ⟨[99], [110], []⟩ 1 1 rfl rfl]
  exact if_pos (by decide)

end QuorumKV.Session.SessionMachine
