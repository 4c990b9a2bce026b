import QuorumKV.Session.AtMostOnce

/-!
# The reference model of the fault simulation

`modelState` of `internal/simulation/randomized.go`, the state each simulated Node keeps to
compare replicas with.  It is written apart from the production machine: it has no session
limit, does not tell stale from early sequences, and computes the next sequence without
looking for its wrap.  While no open is refused for the limit and no sequence is the
largest, it shows what the production machine holds.
-/

namespace QuorumKV.Session

open Raft

structure ModelSession where
  closed : Bool := false
  lastSequence : UInt64 := 0
  deleteResult : Bool := false
  deriving DecidableEq, Repr

structure ModelState where
  values : Values := ∅
  sessions : Finmap fun _ : SessionID => ModelSession := ∅
  deriving DecidableEq

def newModelState : ModelState := {}

namespace ModelState

def apply (m : ModelState) (entry : LogEntry) : ModelState :=
  match entry.type with
  | .noOp => m
  | .openSession =>
      match m.sessions.lookup entry.sessionID with
      | some _ => m
      | none => { m with sessions := m.sessions.insert entry.sessionID {} }
  | .closeSession =>
      match m.sessions.lookup entry.sessionID with
      | none => m
      | some session =>
          if session.closed then m
          else
            { m with
              sessions := m.sessions.insert entry.sessionID { session with closed := true } }
  | .set | .delete =>
      match m.sessions.lookup entry.sessionID with
      | none => m
      | some session =>
          if session.closed ∨ entry.sequence ≠ session.lastSequence + 1 then m
          else if entry.type = .set then
            { values := m.values.insert entry.key entry.value
              sessions := m.sessions.insert entry.sessionID
                { session with
                  deleteResult := false
                  lastSequence := entry.sequence } }
          else
            { values := m.values.erase entry.key
              sessions := m.sessions.insert entry.sessionID
                { session with
                  deleteResult := (m.values.lookup entry.key).isSome
                  lastSequence := entry.sequence } }

def applyAll (m : ModelState) : List LogEntry → ModelState
  | [] => m
  | entry :: entries => applyAll (m.apply entry) entries

@[simp] theorem applyAll_append (m : ModelState) (left right : List LogEntry) :
    m.applyAll (left ++ right) = (m.applyAll left).applyAll right := by
  induction left generalizing m with
  | nil => rfl
  | cons entry left ih => exact ih (m.apply entry)

end ModelState

/-! ## Agreement -/

def SessionRecord.shown (record : SessionRecord) : ModelSession where
  closed := record.state = .permanentlyClosed
  lastSequence := record.lastSequence
  deleteResult := record.lastDeleteExisted

structure Shows (reference : ModelState) (m : SessionMachine) : Prop where
  values : reference.values = m.values
  sessions : ∀ s, reference.sessions.lookup s = (m.sessions.lookup s).map SessionRecord.shown

def Unwrapped (m : SessionMachine) : Prop :=
  ∀ s record, m.sessions.lookup s = some record → record.lastSequence.toNat + 1 < UInt64.size

variable {reference : ModelState} {m : SessionMachine} {entry : LogEntry}

theorem shows_new (limit : Int) : Shows newModelState (newSessionMachine limit) :=
  ⟨rfl, fun _ => rfl⟩

theorem unwrapped_new (limit : Int) : Unwrapped (newSessionMachine limit) :=
  fun _ _ h => by simp [newSessionMachine] at h

theorem Shows.insert (h : Shows reference m) (s : SessionID) (record : SessionRecord)
    (values : Values) (active : Int) :
    Shows { values := values, sessions := reference.sessions.insert s record.shown }
      { m with
        values := values
        sessions := m.sessions.insert s record
        active := active } := by
  refine ⟨rfl, fun other => ?_⟩
  by_cases hs : other = s
  · subst hs
    simp
  · simp [Finmap.lookup_insert_of_ne _ hs, h.sessions other]

theorem Unwrapped.insert (h : Unwrapped m) (s : SessionID) {record : SessionRecord}
    (hrecord : record.lastSequence.toNat + 1 < UInt64.size) (values : Values) (active : Int) :
    Unwrapped { m with
      values := values
      sessions := m.sessions.insert s record
      active := active } := by
  intro other found hfound
  by_cases hs : other = s
  · subst hs
    simp only [Finmap.lookup_insert, Option.some.injEq] at hfound
    exact hfound ▸ hrecord
  · exact h other found (by simpa [Finmap.lookup_insert_of_ne _ hs] using hfound)

theorem Unwrapped.apply (h : Unwrapped m) (hsequence : entry.sequence.toNat + 1 < UInt64.size) :
    Unwrapped (m.apply entry).1 := by
  have htransition := m.apply_transition entry
  generalize m.apply entry = applied at htransition
  cases htransition with
  | unchanged => exact h
  | opened => exact h.insert _ (by decide) _ _
  | closed _ record hlookup =>
      refine h.insert _ ?_ _ _
      exact h _ record hlookup
  | performed => exact h.insert _ hsequence _ _

/-! ## One entry -/

theorem Unwrapped.expects_iff (h : Unwrapped m) {s : SessionID} {q : UInt64}
    {record : SessionRecord} (hlookup : m.sessions.lookup s = some record) :
    m.Expects s q record ↔ ¬ (record.shown.closed ∨ q ≠ record.shown.lastSequence + 1) := by
  have hopen : record.state = .active ↔ record.shown.closed = false := by
    cases hstate : record.state <;> simp [SessionRecord.shown, hstate]
  rw [not_or, Bool.not_eq_true, not_not, ← hopen]
  refine ⟨fun hexpects => ⟨hexpects.active, hexpects.next⟩, fun ⟨hactive, hnext⟩ =>
    ⟨hlookup, hactive, hnext, ?_⟩⟩
  rintro rfl
  have hbound := h s record hlookup
  have hwrap := congrArg UInt64.toNat hnext
  rw [UInt64.toNat_add, UInt64.toNat_zero] at hwrap
  have hone : (1 : UInt64).toNat = 1 := rfl
  have hsize : UInt64.size = 18446744073709551616 := rfl
  simp only [SessionRecord.shown] at hwrap
  omega

theorem ModelState.apply_performed (hmutation : IsMutation entry) {session : ModelSession}
    (hlookup : reference.sessions.lookup entry.sessionID = some session)
    (hnext : ¬ (session.closed ∨ entry.sequence ≠ session.lastSequence + 1)) :
    reference.apply entry =
      { values := performMutation reference.values entry
        sessions := reference.sessions.insert entry.sessionID
          { session with
            deleteResult := entry.type = .delete && (reference.values.lookup entry.key).isSome
            lastSequence := entry.sequence } } := by
  rcases hmutation with htype | htype <;>
    simp only [ModelState.apply, htype, hlookup, if_neg hnext, performMutation, reduceCtorEq,
      if_true, if_false, decide_true, decide_false, Bool.true_and, Bool.false_and]

theorem ModelState.apply_refused (hmutation : IsMutation entry)
    (hrefused : ∀ session, reference.sessions.lookup entry.sessionID = some session →
      session.closed ∨ entry.sequence ≠ session.lastSequence + 1) :
    reference.apply entry = reference := by
  cases hlookup : reference.sessions.lookup entry.sessionID with
  | none => rcases hmutation with htype | htype <;> simp only [ModelState.apply, htype, hlookup]
  | some session =>
      have hrefused := hrefused session hlookup
      rcases hmutation with htype | htype <;>
        simp only [ModelState.apply, htype, hlookup, if_pos hrefused]

theorem SessionMachine.apply_unexpected (hmutation : IsMutation entry)
    (h : ∀ record, ¬ m.Expects entry.sessionID entry.sequence record) :
    (m.apply entry).1 = m := by
  by_contra hchanged
  obtain ⟨-, record, hexpects⟩ := (m.effective_iff entry).mp ⟨hmutation, hchanged⟩
  exact h record hexpects

theorem Shows.mutation (h : Shows reference m) (hunwrapped : Unwrapped m)
    (hmutation : IsMutation entry) : Shows (reference.apply entry) (m.apply entry).1 := by
  have hsession := h.sessions entry.sessionID
  by_cases hexpected : ∃ record, m.Expects entry.sessionID entry.sequence record
  · obtain ⟨record, hexpects⟩ := hexpected
    rw [hexpects.lookup, Option.map_some] at hsession
    have hnext := (hunwrapped.expects_iff hexpects.lookup).mp hexpects
    rw [SessionMachine.apply_expects hmutation hexpects,
      ModelState.apply_performed hmutation hsession hnext, h.values]
    exact h.insert entry.sessionID
      (SessionMachine.mutated record entry (m.reportsExisted entry)) _ m.active
  · have hnone := not_exists.mp hexpected
    rw [SessionMachine.apply_unexpected hmutation hnone,
      ModelState.apply_refused hmutation fun session hfound => ?_]
    · exact h
    · rw [hfound] at hsession
      obtain ⟨record, hlookup, rfl⟩ := Option.map_eq_some_iff.mp hsession.symm
      exact not_not.mp fun hnext =>
        hnone record ((hunwrapped.expects_iff hlookup).mpr hnext)

theorem Shows.apply (h : Shows reference m) (hunwrapped : Unwrapped m)
    (hroom : (m.apply entry).2.failure ≠ .limitReached) :
    Shows (reference.apply entry) (m.apply entry).1 := by
  have hsession := h.sessions entry.sessionID
  cases htype : entry.type with
  | noOp => simpa [ModelState.apply, SessionMachine.apply, htype] using h
  | openSession =>
      cases hlookup : m.sessions.lookup entry.sessionID with
      | some record =>
          rw [hlookup, Option.map_some] at hsession
          simpa [ModelState.apply, SessionMachine.apply, htype, hlookup, hsession] using h
      | none =>
          rw [hlookup, Option.map_none] at hsession
          by_cases hlimit : m.active ≥ m.limit
          · exact absurd (by simp [SessionMachine.apply, htype, hlookup, hlimit]) hroom
          · have hinsert := h.insert entry.sessionID { state := .active } m.values (m.active + 1)
            simp only [ModelState.apply, SessionMachine.apply, htype, hlookup, hsession, hlimit,
              if_false, h.values]
            exact hinsert
  | closeSession =>
      cases hlookup : m.sessions.lookup entry.sessionID with
      | none =>
          rw [hlookup, Option.map_none] at hsession
          simpa [ModelState.apply, SessionMachine.apply, htype, hlookup, hsession] using h
      | some record =>
          rw [hlookup, Option.map_some] at hsession
          cases hstate : record.state with
          | permanentlyClosed =>
              have hclosed : record.shown.closed = true := by simp [SessionRecord.shown, hstate]
              simpa [ModelState.apply, SessionMachine.apply, htype, hlookup, hsession, hstate,
                hclosed] using h
          | active =>
              have hclosed : record.shown.closed = false := by simp [SessionRecord.shown, hstate]
              have hinsert := h.insert entry.sessionID
                { record with state := .permanentlyClosed } m.values (m.active - 1)
              simp only [ModelState.apply, SessionMachine.apply, htype, hlookup, hsession, hstate,
                hclosed, h.values, reduceCtorEq, Bool.false_eq_true, if_false]
              exact hinsert
  | set => exact h.mutation hunwrapped (.inl htype)
  | delete => exact h.mutation hunwrapped (.inr htype)

/-! ## A whole run -/

/-- Entries short of the largest sequence, on which no open is refused for the limit. -/
structure Admitted (limit : Int) (entries : List LogEntry) : Prop where
  sequence_lt : ∀ entry ∈ entries, entry.sequence.toNat < UInt64.size - 1
  room : ∀ i entry, entries[i]? = some entry →
    ((machineAt limit entries i).apply entry).2.failure ≠ .limitReached

theorem Admitted.shows {limit : Int} {entries : List LogEntry} (h : Admitted limit entries) :
    Shows (newModelState.applyAll entries) ((newSessionMachine limit).applyAll entries) ∧
      Unwrapped ((newSessionMachine limit).applyAll entries) := by
  induction entries using List.reverseRecOn with
  | nil => exact ⟨shows_new limit, unwrapped_new limit⟩
  | append_singleton entries entry ih =>
      have hfront : Admitted limit entries := by
        refine ⟨fun other hother => h.sequence_lt other (by simp [hother]), ?_⟩
        intro i other hother
        obtain ⟨hlt, -⟩ := List.getElem?_eq_some_iff.mp hother
        have hroom := h.room i other (by rwa [List.getElem?_append_left hlt])
        rwa [machineAt, List.take_append_of_le_length hlt.le] at hroom
      obtain ⟨hshows, hunwrapped⟩ := ih hfront
      have hsequence := h.sequence_lt entry (by simp)
      have hroom := h.room entries.length entry (by simp)
      rw [machineAt, List.take_left] at hroom
      rw [ModelState.applyAll_append, SessionMachine.applyAll_append]
      exact ⟨hshows.apply hunwrapped hroom, hunwrapped.apply (by omega)⟩

theorem SessionRecord.eq_of_shown {left right : SessionRecord} (h : left.shown = right.shown)
    (hleft : left.lastMutationResult = .succeeded)
    (hright : right.lastMutationResult = .succeeded) : left = right := by
  have hclosed : decide (left.state = .permanentlyClosed) =
      decide (right.state = .permanentlyClosed) := congrArg ModelSession.closed h
  have hstate : left.state = right.state := by
    cases hl : left.state <;> cases hr : right.state <;> simp [hl, hr] at hclosed ⊢
  have hsequence : left.lastSequence = right.lastSequence := congrArg ModelSession.lastSequence h
  have hexisted : left.lastDeleteExisted = right.lastDeleteExisted :=
    congrArg ModelSession.deleteResult h
  cases left
  cases right
  simp_all

theorem Shows.machine_eq {other : SessionMachine} (h : Shows reference m)
    (hother : Shows reference other)
    (hm : ∀ s, (m.recordOf s).lastMutationResult = .succeeded)
    (hsucceeded : ∀ s, (other.recordOf s).lastMutationResult = .succeeded) :
    m.values = other.values ∧ m.sessions = other.sessions := by
  refine ⟨h.values.symm.trans hother.values, Finmap.ext_lookup fun s => ?_⟩
  have heq : (m.sessions.lookup s).map SessionRecord.shown =
      (other.sessions.lookup s).map SessionRecord.shown :=
    (h.sessions s).symm.trans (hother.sessions s)
  have hm := hm s
  have hsucceeded := hsucceeded s
  unfold SessionMachine.recordOf at hm hsucceeded
  cases hleft : m.sessions.lookup s with
  | none =>
      rw [hleft, Option.map_none, eq_comm, Option.map_eq_none_iff] at heq
      exact heq.symm
  | some record =>
      rw [hleft, Option.map_some] at heq
      obtain ⟨found, hright, hshown⟩ := Option.map_eq_some_iff.mp heq.symm
      rw [hleft, Option.getD_some] at hm
      rw [hright, Option.getD_some] at hsucceeded
      rw [hright, SessionRecord.eq_of_shown hshown hsucceeded hm]

theorem lastMutationResult_applyAll (limit : Int) (entries : List LogEntry) :
    ∀ s, (((newSessionMachine limit).applyAll entries).recordOf s).lastMutationResult =
      .succeeded :=
  SessionMachine.applyAll_invariant
    (P := fun m => ∀ s, (m.recordOf s).lastMutationResult = .succeeded)
    (fun _ entry h => SessionMachine.lastMutationResult_apply entry h) entries
    fun _ => by simp [newSessionMachine, SessionMachine.recordOf]

/--
The reference model holds the production machine's key-value map and sessions, and two runs
with one reference state hold one production state.
-/
theorem reference_agrees (limit : Int) (entries : List LogEntry) (h : Admitted limit entries) :
    let reference := newModelState.applyAll entries
    let machine := (newSessionMachine limit).applyAll entries
    reference.values = machine.values ∧
      reference.sessions.keys = machine.sessions.keys ∧
      (∀ s session record, reference.sessions.lookup s = some session →
        machine.sessions.lookup s = some record →
        (session.closed = true ↔ record.state = .permanentlyClosed) ∧
          session.lastSequence = record.lastSequence ∧
          session.deleteResult = record.lastDeleteExisted) ∧
      ∀ otherLimit others, Admitted otherLimit others →
        newModelState.applyAll others = reference →
        ((newSessionMachine otherLimit).applyAll others).values = machine.values ∧
          ((newSessionMachine otherLimit).applyAll others).sessions = machine.sessions := by
  intro reference machine
  have hshows : Shows reference machine := h.shows.1
  refine ⟨hshows.values, ?_, fun s session record hsession hrecord => ?_,
    fun otherLimit others hadmitted hsame => ?_⟩
  · ext s
    rw [Finmap.mem_keys, Finmap.mem_keys, ← Finmap.lookup_isSome, ← Finmap.lookup_isSome,
      hshows.sessions s, Option.isSome_map]
  · have hshown := hshows.sessions s
    rw [hsession, hrecord, Option.map_some, Option.some.injEq] at hshown
    rw [hshown]
    exact ⟨decide_eq_true_iff, rfl, rfl⟩
  · have hother := hadmitted.shows.1
    rw [hsame] at hother
    exact hother.machine_eq hshows (lastMutationResult_applyAll otherLimit others)
      (lastMutationResult_applyAll limit entries)

def sessionLife (s : SessionID) : List LogEntry :=
  [{ index := 1, term := 1, type := .openSession, sessionID := s },
    { index := 2, term := 1, type := .set, sessionID := s, sequence := 1, key := [1] },
    { index := 3, term := 1, type := .delete, sessionID := s, sequence := 2, key := [1] },
    { index := 4, term := 1, type := .delete, sessionID := s, sequence := 2, key := [1] },
    { index := 5, term := 1, type := .closeSession, sessionID := s }]

theorem sessionLife_admitted : Admitted 1 (sessionLife SessionID.zero) := by
  refine ⟨by decide, fun i entry hentry => ?_⟩
  have hroom : ∀ i : Fin 5, ((machineAt 1 (sessionLife SessionID.zero) i).apply
      ((sessionLife SessionID.zero).get i)).2.failure ≠ .limitReached := by decide +kernel
  obtain ⟨hlt, rfl⟩ := List.getElem?_eq_some_iff.mp hentry
  exact hroom ⟨i, hlt⟩

theorem reference_agrees_sample :
    Admitted 1 (sessionLife SessionID.zero) ∧
      (newModelState.applyAll (sessionLife SessionID.zero)).sessions.keys =
        ((newSessionMachine 1).applyAll (sessionLife SessionID.zero)).sessions.keys :=
  ⟨sessionLife_admitted, (reference_agrees 1 _ sessionLife_admitted).2.1⟩

end QuorumKV.Session
