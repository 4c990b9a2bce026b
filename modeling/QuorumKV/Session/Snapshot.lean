import Mathlib.Data.Finset.Sort
import Mathlib.Tactic.Ring
import QuorumKV.Session.AtMostOnce

/-!
# Snapshots of the session machine

`snapshot` and `restore` of `internal/node/snapshot.go`, with the Snapshot state
they exchange.  Sessions are listed in the byte order of their identities, so
the captured state does not depend on the iteration order of a Go map.
-/

namespace QuorumKV

namespace Snapshot

open Raft

structure Identity where
  clusterID : Bytes := []
  nodeID : NodeID := []
  memberIDs : List NodeID := []
  deriving DecidableEq, Repr

structure Session where
  id : SessionID
  closed : Bool
  lastSequence : UInt64
  lastResult : UInt8
  lastDeleteExisted : Bool
  deriving DecidableEq, Repr

/-- The complete replicated state through `includedIndex`. -/
structure State where
  identity : Identity
  includedIndex : Nat
  includedTerm : Nat
  values : QuorumKV.Session.Values
  sessions : List Session
  deriving DecidableEq

end Snapshot

namespace Session

open Raft

instance : LE SessionID := ⟨fun left right => left.bytes ≤ right.bytes⟩

instance : DecidableRel (α := SessionID) (· ≤ ·) :=
  fun left right => inferInstanceAs (Decidable (left.bytes ≤ right.bytes))

instance : IsTrans SessionID (· ≤ ·) := ⟨fun _ _ _ => List.le_trans⟩

instance : Std.Total (α := SessionID) (· ≤ ·) :=
  ⟨fun left right => List.le_total left.bytes right.bytes⟩

instance : Std.Antisymm (α := SessionID) (· ≤ ·) := ⟨by
  rintro ⟨left, _⟩ ⟨right, _⟩ h h'
  have : left = right := List.le_antisymm h h'
  simp [this]⟩

def SessionFailure.toUInt8 : SessionFailure → UInt8
  | .succeeded => 0
  | .limitReached => 1
  | .unknown => 2
  | .closed => 3
  | .alreadyExists => 4
  | .staleSequence => 5
  | .outOfOrderSequence => 6

def SessionFailure.ofUInt8? : UInt8 → Option SessionFailure
  | 0 => some .succeeded
  | 1 => some .limitReached
  | 2 => some .unknown
  | 3 => some .closed
  | 4 => some .alreadyExists
  | 5 => some .staleSequence
  | 6 => some .outOfOrderSequence
  | _ => none

@[simp] theorem SessionFailure.ofUInt8?_toUInt8 (failure : SessionFailure) :
    SessionFailure.ofUInt8? failure.toUInt8 = some failure := by
  cases failure <;> rfl

/-- The two errors of `restore`, with the values their texts report. -/
inductive RestoreError where
  | unknownResult (id : SessionID) (result : UInt8)
  | activeLimit (active limit : Int)
  deriving DecidableEq, Repr

namespace SessionMachine

def savedSession (m : SessionMachine) (id : SessionID) : Snapshot.Session :=
  let record := m.recordOf id
  { id := id
    closed := record.state = .permanentlyClosed
    lastSequence := record.lastSequence
    lastResult := record.lastMutationResult.toUInt8
    lastDeleteExisted := record.lastDeleteExisted }

def snapshot (m : SessionMachine) (identity : Snapshot.Identity)
    (includedIndex includedTerm : Nat) : Snapshot.State :=
  { identity := identity
    includedIndex := includedIndex
    includedTerm := includedTerm
    values := m.values
    sessions := (m.sessions.keys.sort (· ≤ ·)).map m.savedSession }

def restoreSession (m : SessionMachine) (saved : Snapshot.Session) :
    Except RestoreError SessionMachine :=
  match SessionFailure.ofUInt8? saved.lastResult with
  | none => .error (.unknownResult saved.id saved.lastResult)
  | some failure =>
      .ok { m with
        active := if saved.closed then m.active else m.active + 1
        sessions := m.sessions.insert saved.id
          { state := if saved.closed then .permanentlyClosed else .active
            lastSequence := saved.lastSequence
            lastMutationResult := failure
            lastDeleteExisted := saved.lastDeleteExisted } }

def restoreSessions (m : SessionMachine) :
    List Snapshot.Session → Except RestoreError SessionMachine
  | [] => .ok m
  | saved :: rest =>
      match m.restoreSession saved with
      | .error e => .error e
      | .ok m => restoreSessions m rest

def restore (m : SessionMachine) :
    Option Snapshot.State → Except RestoreError SessionMachine
  | none => .ok m
  | some state =>
      match { m with active := 0, sessions := ∅, values := state.values
          }.restoreSessions state.sessions with
      | .error e => .error e
      | .ok restored =>
          if restored.active > restored.limit then
            .error (.activeLimit restored.active restored.limit)
          else .ok restored

theorem restoreSession_savedSession (m base : SessionMachine) (id : SessionID) :
    base.restoreSession (m.savedSession id) = .ok { base with
      active :=
        if (m.recordOf id).state = .active then base.active + 1 else base.active
      sessions := base.sessions.insert id (m.recordOf id) } := by
  generalize hrecord : m.recordOf id = record
  obtain ⟨state, lastSequence, failure, existed⟩ := record
  cases state <;>
    simp [restoreSession, savedSession, hrecord]

theorem restoreSessions_savedSession (m : SessionMachine) (ids : List SessionID)
    (base : SessionMachine) :
    ∃ restored, base.restoreSessions (ids.map m.savedSession) = .ok restored ∧
      restored.limit = base.limit ∧ restored.values = base.values ∧
      restored.active =
        base.active + (ids.filter fun id => (m.recordOf id).state = .active).length ∧
      ∀ s, restored.sessions.lookup s =
        if s ∈ ids then some (m.recordOf s) else base.sessions.lookup s := by
  induction ids generalizing base with
  | nil => exact ⟨base, rfl, rfl, rfl, by simp, by simp⟩
  | cons id ids ih =>
      obtain ⟨restored, hrestored, hlimit, hvalues, hactive, hlookup⟩ := ih { base with
        active :=
          if (m.recordOf id).state = .active then base.active + 1 else base.active
        sessions := base.sessions.insert id (m.recordOf id) }
      refine ⟨restored, ?_, hlimit, hvalues, ?_, ?_⟩
      · simpa only [List.map_cons, restoreSessions, restoreSession_savedSession]
          using hrestored
      · rw [hactive, List.filter_cons]
        by_cases hstate : (m.recordOf id).state = .active
        · simp only [hstate, if_true, decide_true, List.length_cons]
          push_cast
          ring
        · simp [hstate]
      · intro s
        rw [hlookup s]
        by_cases hs : s = id
        · subst hs
          simp [Finmap.lookup_insert]
        · simp [hs, Finmap.lookup_insert_of_ne _ hs]

theorem restore_snapshot {m base : SessionMachine} (identity : Snapshot.Identity)
    (index term : Nat) (hlimit : base.limit = m.limit)
    (hactive : m.active = m.activeSessions.card) :
    base.restore (some (m.snapshot identity index term)) =
      if m.active > m.limit then .error (.activeLimit m.active m.limit) else .ok m := by
  obtain ⟨restored, hrestored, hl, hv, ha, hlookup⟩ :=
    restoreSessions_savedSession m (m.sessions.keys.sort (· ≤ ·))
      { base with active := 0, sessions := ∅, values := m.values }
  have hsessions : restored.sessions = m.sessions := by
    apply Finmap.ext_lookup
    intro s
    rw [hlookup s]
    cases hs : m.sessions.lookup s with
    | none =>
        have : s ∉ m.sessions := Finmap.lookup_eq_none.mp hs
        simp [Finmap.mem_keys, this]
    | some record =>
        have : s ∈ m.sessions := Finmap.mem_of_lookup_eq_some hs
        simp [Finmap.mem_keys, this, recordOf, hs]
  have hcount : restored.active = m.active := by
    rw [ha, hactive, Int.zero_add]
    have hnodup := (m.sessions.keys.sort_nodup (· ≤ ·)).filter
      fun id => decide ((m.recordOf id).state = .active)
    rw [← List.toFinset_card_of_nodup hnodup, List.toFinset_filter,
      Finset.sort_toFinset]
    simp [activeSessions]
  have heq : restored = m := by
    obtain ⟨limit, active, sessions, values⟩ := restored
    simp only at hl hv hsessions hcount
    rw [hsessions, hcount, hv, hl, hlimit]
  subst heq
  simp only [restore, snapshot, hrestored]

end SessionMachine

end Session

end QuorumKV
