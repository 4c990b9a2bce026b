import Mathlib.Data.Finmap
import QuorumKV.Raft.Types

/-!
# The replicated session machine

`sessionMachine` of `internal/node/session.go`: the Client Sessions with their
deduplication records, and the key-value map they mutate.  Both Go maps are
finite maps, so two machines are equal when they hold the same state, whatever
order it was built in.
-/

namespace QuorumKV.Session

open Raft

inductive SessionFailure where
  | succeeded
  | limitReached
  | unknown
  | closed
  | alreadyExists
  | staleSequence
  | outOfOrderSequence
  deriving DecidableEq, Repr

structure ProposalResult where
  sessionID : SessionID := SessionID.zero
  failure : SessionFailure := .succeeded
  sequence : UInt64 := 0
  wantSequence : UInt64 := 0
  leaderID : NodeID := []
  rejected : Bool := false
  existed : Bool := false
  deriving DecidableEq, Repr

inductive SessionState where
  | active
  | permanentlyClosed
  deriving DecidableEq, Repr

structure SessionRecord where
  state : SessionState := .active
  lastSequence : UInt64 := 0
  lastMutationResult : SessionFailure := .succeeded
  lastDeleteExisted : Bool := false
  deriving DecidableEq, Repr

abbrev Values := Finmap fun _ : Bytes => Bytes

structure SessionMachine where
  limit : Int
  active : Int := 0
  sessions : Finmap fun _ : SessionID => SessionRecord := ∅
  values : Values := ∅
  deriving DecidableEq

def newSessionMachine (limit : Int) : SessionMachine := { limit := limit }

namespace SessionMachine

/-- Whether a command is the next mutation to apply, and its result when it is not. -/
def evaluateMutation (m : SessionMachine) (sessionID : SessionID) (sequence : UInt64) :
    ProposalResult × Bool :=
  let result : ProposalResult := { sessionID := sessionID, sequence := sequence }
  match m.sessions.lookup sessionID with
  | none => ({ result with failure := .unknown }, false)
  | some record =>
      if record.state = .permanentlyClosed then ({ result with failure := .closed }, false)
      else if sequence = record.lastSequence ∧ sequence ≠ 0 then
        ({ result with
            failure := record.lastMutationResult
            existed := record.lastDeleteExisted }, false)
      else if sequence < record.lastSequence then
        ({ result with
            failure := .staleSequence
            wantSequence := record.lastSequence }, false)
      else if sequence ≠ record.lastSequence + 1 then
        ({ result with
            failure := .outOfOrderSequence
            wantSequence := record.lastSequence + 1 }, false)
      else (result, true)

/-- The zero record stands for a missing one, as in a Go map read. -/
def recordOf (m : SessionMachine) (sessionID : SessionID) : SessionRecord :=
  (m.sessions.lookup sessionID).getD {}

def apply (m : SessionMachine) (entry : LogEntry) : SessionMachine × ProposalResult :=
  let result : ProposalResult := { sessionID := entry.sessionID }
  match entry.type with
  | .noOp => (m, result)
  | .openSession =>
      match m.sessions.lookup entry.sessionID with
      | some _ => (m, { result with failure := .alreadyExists })
      | none =>
          if m.active ≥ m.limit then (m, { result with failure := .limitReached })
          else
            ({ m with
                sessions := m.sessions.insert entry.sessionID { state := .active }
                active := m.active + 1 }, result)
  | .closeSession =>
      match m.sessions.lookup entry.sessionID with
      | none => (m, { result with failure := .unknown })
      | some record =>
          if record.state = .permanentlyClosed then
            (m, { result with failure := .closed })
          else
            ({ m with
                sessions := m.sessions.insert entry.sessionID
                  { record with state := .permanentlyClosed }
                active := m.active - 1 }, result)
  | .set =>
      let evaluated := m.evaluateMutation entry.sessionID entry.sequence
      if evaluated.2 = false then (m, evaluated.1)
      else
        ({ m with
            values := m.values.insert entry.key entry.value
            sessions := m.sessions.insert entry.sessionID
              { m.recordOf entry.sessionID with
                lastSequence := entry.sequence
                lastMutationResult := evaluated.1.failure
                lastDeleteExisted := false } }, evaluated.1)
  | .delete =>
      let evaluated := m.evaluateMutation entry.sessionID entry.sequence
      if evaluated.2 = false then (m, evaluated.1)
      else
        let existed := (m.values.lookup entry.key).isSome
        ({ m with
            values := m.values.erase entry.key
            sessions := m.sessions.insert entry.sessionID
              { m.recordOf entry.sessionID with
                lastSequence := entry.sequence
                lastMutationResult := evaluated.1.failure
                lastDeleteExisted := existed } },
          { evaluated.1 with existed := existed })

def get (m : SessionMachine) (key : Bytes) : Bytes × Bool :=
  ((m.values.lookup key).getD [], (m.values.lookup key).isSome)

end SessionMachine

def IsMutation (entry : LogEntry) : Prop := entry.type = .set ∨ entry.type = .delete

instance (entry : LogEntry) : Decidable (IsMutation entry) :=
  inferInstanceAs (Decidable (_ ∨ _))

def performMutation (values : Values) (entry : LogEntry) : Values :=
  if entry.type = .set then values.insert entry.key entry.value else values.erase entry.key

namespace SessionMachine

/-! ## One step -/

structure Expects (m : SessionMachine) (sessionID : SessionID) (sequence : UInt64)
    (record : SessionRecord) : Prop where
  lookup : m.sessions.lookup sessionID = some record
  active : record.state = .active
  next : sequence = record.lastSequence + 1
  positive : sequence ≠ 0

theorem evaluateMutation_true {m : SessionMachine} {s : SessionID} {q : UInt64}
    (h : (m.evaluateMutation s q).2 = true) :
    (∃ record, m.Expects s q record) ∧
      (m.evaluateMutation s q).1 = { sessionID := s, sequence := q } := by
  unfold evaluateMutation at h ⊢
  cases hlookup : m.sessions.lookup s with
  | none => simp [hlookup] at h
  | some record =>
      simp only [hlookup] at h ⊢
      split at h
      · simp at h
      rename_i hstate
      split at h
      · simp at h
      rename_i hcached
      split at h
      · simp at h
      rename_i hstale
      split at h
      · simp at h
      rename_i horder
      rw [if_neg hstate, if_neg hcached, if_neg hstale, if_neg horder]
      have hactive : record.state = .active := by
        cases hs : record.state with
        | active => rfl
        | permanentlyClosed => exact absurd hs hstate
      have hnext : q = record.lastSequence + 1 := not_not.mp horder
      refine ⟨⟨record, hlookup, hactive, hnext, ?_⟩, rfl⟩
      intro hzero
      -- Zero follows only the largest sequence, where the machine calls it stale.
      have hle : ¬ q < record.lastSequence := hstale
      subst hzero
      have hzero : record.lastSequence = 0 := by
        have : ¬ (0 : UInt64).toNat < record.lastSequence.toNat := hle
        exact UInt64.toNat_inj.mp (by simpa using this)
      rw [hzero] at hnext
      exact absurd hnext (by decide)

theorem Expects.toNat_eq {m : SessionMachine} {s : SessionID} {q : UInt64}
    {record : SessionRecord} (h : m.Expects s q record) :
    q.toNat = record.lastSequence.toNat + 1 := by
  have hwrap : record.lastSequence.toNat + 1 < 2 ^ 64 := by
    by_contra hlarge
    have hbound := record.lastSequence.toNat_lt
    have : q.toNat = 0 := by
      rw [h.next, UInt64.toNat_add]
      have : record.lastSequence.toNat = 2 ^ 64 - 1 := by omega
      simp [this]
    exact h.positive (UInt64.toNat_inj.mp (by simpa using this))
  rw [h.next, UInt64.toNat_add]
  exact Nat.mod_eq_of_lt (by simpa using hwrap)

theorem evaluateMutation_expects {m : SessionMachine} {s : SessionID} {q : UInt64}
    {record : SessionRecord} (h : m.Expects s q record) :
    m.evaluateMutation s q = ({ sessionID := s, sequence := q }, true) := by
  have hnat := h.toNat_eq
  unfold evaluateMutation
  simp only [h.lookup]
  rw [if_neg (by rw [h.active]; decide), if_neg, if_neg, if_neg (not_not.mpr h.next)]
  · intro hlt
    have : q.toNat < record.lastSequence.toNat := hlt
    omega
  · rintro ⟨heq, -⟩
    rw [heq] at hnat
    omega

theorem evaluateMutation_false {m : SessionMachine} {s : SessionID} {q : UInt64}
    (h : (m.evaluateMutation s q).2 = false) (record : SessionRecord) :
    ¬ m.Expects s q record := by
  intro hexpects
  rw [evaluateMutation_expects hexpects] at h
  exact Bool.noConfusion h

theorem evaluateMutation_cached {m : SessionMachine} {s : SessionID} {q : UInt64}
    (h : (m.evaluateMutation s q).2 = false)
    (hsucceeded : (m.evaluateMutation s q).1.failure = .succeeded) :
    q = (m.recordOf s).lastSequence ∧ q ≠ 0 := by
  unfold evaluateMutation at h hsucceeded
  cases hlookup : m.sessions.lookup s with
  | none => simp [hlookup] at hsucceeded
  | some record =>
      simp only [hlookup] at h hsucceeded
      simp only [recordOf, hlookup, Option.getD_some]
      split at hsucceeded
      · simp at hsucceeded
      next hopen =>
        rw [if_neg hopen] at h
        split at hsucceeded
        next hcached => exact hcached
        next hnew =>
          rw [if_neg hnew] at h
          split at hsucceeded
          · simp at hsucceeded
          next hstale =>
            rw [if_neg hstale] at h
            split at hsucceeded
            · simp at hsucceeded
            next hnext => simp [hnext] at h

def mutated (record : SessionRecord) (entry : LogEntry) (existed : Bool) : SessionRecord :=
  { record with
    lastSequence := entry.sequence
    lastMutationResult := .succeeded
    lastDeleteExisted := existed }

def reportsExisted (m : SessionMachine) (entry : LogEntry) : Bool :=
  entry.type = .delete && (m.values.lookup entry.key).isSome

/-- Everything `apply` can do, one constructor for each way the machine changes. -/
inductive Transition (m : SessionMachine) (entry : LogEntry) :
    SessionMachine × ProposalResult → Prop where
  | unchanged (result : ProposalResult)
      (notOpened : entry.type = .openSession → result.failure ≠ .succeeded)
      (notClosed : entry.type = .closeSession → result.failure ≠ .succeeded)
      (notExpected : IsMutation entry →
        ∀ record, ¬ m.Expects entry.sessionID entry.sequence record) :
      Transition m entry (m, result)
  | opened (type_eq : entry.type = .openSession)
      (fresh : m.sessions.lookup entry.sessionID = none)
      (room : m.active < m.limit) :
      Transition m entry
        ({ m with
            sessions := m.sessions.insert entry.sessionID { state := .active }
            active := m.active + 1 }, { sessionID := entry.sessionID })
  | closed (type_eq : entry.type = .closeSession) (record : SessionRecord)
      (lookup : m.sessions.lookup entry.sessionID = some record)
      (active : record.state = .active) :
      Transition m entry
        ({ m with
            sessions := m.sessions.insert entry.sessionID
              { record with state := .permanentlyClosed }
            active := m.active - 1 }, { sessionID := entry.sessionID })
  | performed (mutation : IsMutation entry) (record : SessionRecord)
      (expects : m.Expects entry.sessionID entry.sequence record) :
      Transition m entry
        ({ m with
            values := performMutation m.values entry
            sessions := m.sessions.insert entry.sessionID
              (mutated record entry (m.reportsExisted entry)) },
          { sessionID := entry.sessionID
            sequence := entry.sequence
            existed := m.reportsExisted entry })

private theorem apply_mutation {m : SessionMachine} {entry : LogEntry}
    (hmutation : IsMutation entry)
    (hfalse : (m.evaluateMutation entry.sessionID entry.sequence).2 = false) :
    Transition m entry (m, (m.evaluateMutation entry.sessionID entry.sequence).1) := by
  refine .unchanged _ ?_ ?_ fun _ => evaluateMutation_false hfalse
  · intro htype
    rcases hmutation with h | h <;> simp [h] at htype
  · intro htype
    rcases hmutation with h | h <;> simp [h] at htype

theorem apply_transition (m : SessionMachine) (entry : LogEntry) :
    Transition m entry (m.apply entry) := by
  cases htype : entry.type with
  | noOp =>
      simp only [apply, htype]
      refine .unchanged _ ?_ ?_ ?_ <;> simp [htype, IsMutation]
  | openSession =>
      simp only [apply, htype]
      cases hlookup : m.sessions.lookup entry.sessionID with
      | some record =>
          refine .unchanged _ ?_ ?_ ?_ <;> simp [htype, IsMutation]
      | none =>
          by_cases hroom : m.active ≥ m.limit
          · simp only [hroom, if_true]
            refine .unchanged _ ?_ ?_ ?_ <;> simp [htype, IsMutation]
          · simp only [hroom, if_false]
            exact .opened htype hlookup (not_le.mp hroom)
  | closeSession =>
      simp only [apply, htype]
      cases hlookup : m.sessions.lookup entry.sessionID with
      | none => refine .unchanged _ ?_ ?_ ?_ <;> simp [htype, IsMutation]
      | some record =>
          cases hstate : record.state with
          | active =>
              simp only [hstate, reduceCtorEq, if_false]
              exact .closed htype record hlookup hstate
          | permanentlyClosed =>
              simp only [hstate, if_true]
              refine .unchanged _ ?_ ?_ ?_ <;> simp [htype, IsMutation]
  | set =>
      have hmutation : IsMutation entry := .inl htype
      simp only [apply, htype]
      cases heval : (m.evaluateMutation entry.sessionID entry.sequence).2 with
      | false => simpa using apply_mutation hmutation heval
      | true =>
          obtain ⟨⟨record, hexpects⟩, hresult⟩ := evaluateMutation_true heval
          have := Transition.performed hmutation record hexpects
          simpa [hresult, performMutation, htype, reportsExisted, mutated, recordOf,
            hexpects.lookup] using this
  | delete =>
      have hmutation : IsMutation entry := .inr htype
      simp only [apply, htype]
      cases heval : (m.evaluateMutation entry.sessionID entry.sequence).2 with
      | false => simpa using apply_mutation hmutation heval
      | true =>
          obtain ⟨⟨record, hexpects⟩, hresult⟩ := evaluateMutation_true heval
          have := Transition.performed hmutation record hexpects
          simpa [hresult, performMutation, htype, reportsExisted, mutated, recordOf,
            hexpects.lookup] using this

theorem apply_expects {m : SessionMachine} {entry : LogEntry} {record : SessionRecord}
    (hmutation : IsMutation entry)
    (hexpects : m.Expects entry.sessionID entry.sequence record) :
    m.apply entry =
      ({ m with
          values := performMutation m.values entry
          sessions := m.sessions.insert entry.sessionID
            (mutated record entry (m.reportsExisted entry)) },
        { sessionID := entry.sessionID
          sequence := entry.sequence
          existed := m.reportsExisted entry }) := by
  have htransition := m.apply_transition entry
  generalize m.apply entry = applied at htransition
  cases htransition with
  | unchanged _ _ _ notExpected => exact absurd hexpects (notExpected hmutation record)
  | opened htype | closed htype =>
      rcases hmutation with h | h <;> simp [htype] at h
  | performed _ other hother =>
      have : other = record := Option.some.inj (hother.lookup.symm.trans hexpects.lookup)
      rw [this]

theorem apply_failed {m : SessionMachine} {entry : LogEntry} (hmutation : IsMutation entry)
    (hfailed : (m.apply entry).2.failure ≠ .succeeded) :
    (m.apply entry).2 = (m.evaluateMutation entry.sessionID entry.sequence).1 := by
  cases heval : (m.evaluateMutation entry.sessionID entry.sequence).2 with
  | false => rcases hmutation with htype | htype <;> simp [apply, htype, heval]
  | true =>
      obtain ⟨⟨record, hexpects⟩, -⟩ := evaluateMutation_true heval
      exact absurd (by rw [apply_expects hmutation hexpects]) hfailed

def applyAll (m : SessionMachine) : List LogEntry → SessionMachine
  | [] => m
  | entry :: entries => applyAll (m.apply entry).1 entries

@[simp] theorem applyAll_append (m : SessionMachine) (left right : List LogEntry) :
    m.applyAll (left ++ right) = (m.applyAll left).applyAll right := by
  induction left generalizing m with
  | nil => rfl
  | cons entry left ih => exact ih (m.apply entry).1

end SessionMachine

end QuorumKV.Session
