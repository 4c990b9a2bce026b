import QuorumKV.Session.Snapshot

/-!
# Retrying the latest mutation

A mutation that took effect leaves its result in the session's record.  The
record survives every entry up to the session's next effect, and the machine
answers a retry from it for as long as the session is open.  Closing the session
keeps the record and hides it: `evaluateMutation` reports the closed session
before it looks at the cached result.
-/

namespace QuorumKV.Session

open Raft

/-- What may happen to a machine between a mutation and its retry. -/
inductive Operation where
  | entry (entry : LogEntry)
  | restore (identity : Snapshot.Identity) (includedIndex includedTerm : Nat)
  deriving DecidableEq, Repr

namespace SessionMachine

def perform (m : SessionMachine) : Operation → Except RestoreError SessionMachine
  | .entry entry => .ok (m.apply entry).1
  | .restore identity index term => m.restore (some (m.snapshot identity index term))

def performAll (m : SessionMachine) : List Operation → Except RestoreError SessionMachine
  | [] => .ok m
  | operation :: operations =>
      match m.perform operation with
      | .error e => .error e
      | .ok m => performAll m operations

def effectsDuring (m : SessionMachine) : List Operation → List LogEntry
  | [] => []
  | operation :: operations =>
      (match operation with
        | .entry entry => if m.Effective entry then [entry] else []
        | .restore .. => []) ++
      (match m.perform operation with
        | .error _ => []
        | .ok m => effectsDuring m operations)

structure Cached (m : SessionMachine) (s : SessionID) (state : SessionState)
    (sequence : UInt64) (existed : Bool) : Prop where
  counted : m.active = m.activeSessions.card
  lookup : m.sessions.lookup s = some
    { state := state
      lastSequence := sequence
      lastMutationResult := .succeeded
      lastDeleteExisted := existed }

def Closes (s : SessionID) (operation : Operation) : Prop :=
  ∃ entry, operation = .entry entry ∧ entry.type = .closeSession ∧ entry.sessionID = s

theorem perform_counted {m m' : SessionMachine} {operation : Operation}
    (hcounted : m.active = m.activeSessions.card)
    (h : m.perform operation = .ok m') : m'.active = m'.activeSessions.card := by
  cases operation with
  | entry entry =>
      simp only [perform, Except.ok.injEq] at h
      rw [← h]
      exact active_apply entry hcounted
  | restore identity index term =>
      simp only [perform, restore_snapshot identity index term rfl hcounted] at h
      split at h
      · simp at h
      · rw [← Except.ok.inj h]
        exact hcounted

theorem performAll_counted {m m' : SessionMachine} {operations : List Operation}
    (hcounted : m.active = m.activeSessions.card)
    (h : m.performAll operations = .ok m') : m'.active = m'.activeSessions.card := by
  induction operations generalizing m with
  | nil =>
      rw [← Except.ok.inj h]
      exact hcounted
  | cons operation operations ih =>
      cases hperform : m.perform operation with
      | error e => simp [performAll, hperform] at h
      | ok next =>
          simp only [performAll, hperform] at h
          exact ih (perform_counted hcounted hperform) h

theorem Cached.apply {m : SessionMachine} {s : SessionID} {state : SessionState}
    {q : UInt64} {existed : Bool} (h : m.Cached s state q existed) (entry : LogEntry)
    (hnext : m.Effective entry → ¬ (entry.sessionID = s ∧ entry.sequence = q + 1)) :
    (m.apply entry).1.Cached s
      (if entry.type = .closeSession ∧ entry.sessionID = s then .permanentlyClosed
        else state) q existed := by
  refine ⟨active_apply entry h.counted, ?_⟩
  rw [effective_iff] at hnext
  have htransition := m.apply_transition entry
  generalize hresult : m.apply entry = applied at htransition
  cases htransition with
  | unchanged result _ notClosed =>
      split
      · next hclose =>
          obtain ⟨htype, rfl⟩ := hclose
          cases state with
          | permanentlyClosed => exact h.lookup
          | active =>
              have hfailure : result.failure = .succeeded := by
                have := congrArg (fun p => p.2.failure) hresult
                simpa [SessionMachine.apply, htype, h.lookup] using this.symm
              exact absurd hfailure (notClosed htype)
      · exact h.lookup
  | opened htype fresh =>
      have hs : s ≠ entry.sessionID := by
        rintro rfl
        simp [h.lookup] at fresh
      rw [if_neg (by simp [htype])]
      simpa [Finmap.lookup_insert_of_ne _ hs] using h.lookup
  | closed htype record hlookup =>
      by_cases hs : s = entry.sessionID
      · subst hs
        rw [h.lookup, Option.some.injEq] at hlookup
        simp [htype, ← hlookup]
      · rw [if_neg fun hclose => hs hclose.2.symm]
        simpa [Finmap.lookup_insert_of_ne _ hs] using h.lookup
  | performed hmutation record hexpects =>
      have hs : s ≠ entry.sessionID := by
        rintro rfl
        have hrecord := Option.some.inj (h.lookup.symm.trans hexpects.lookup)
        refine hnext ⟨hmutation, record, hexpects⟩ ⟨rfl, ?_⟩
        rw [hexpects.next, ← hrecord]
      rw [if_neg fun hclose => hs hclose.2.symm]
      simpa [Finmap.lookup_insert_of_ne _ hs] using h.lookup

theorem Cached.perform {m m' : SessionMachine} {s : SessionID} {state : SessionState}
    {q : UInt64} {existed : Bool} (h : m.Cached s state q existed) {operation : Operation}
    (hnext : ∀ entry, operation = .entry entry → m.Effective entry →
      ¬ (entry.sessionID = s ∧ entry.sequence = q + 1))
    (hperform : m.perform operation = .ok m') :
    ∃ state', m'.Cached s state' q existed ∧
      (state' = .active ↔ state = .active ∧ ¬ Closes s operation) := by
  cases operation with
  | entry entry =>
      simp only [SessionMachine.perform, Except.ok.injEq] at hperform
      subst hperform
      refine ⟨_, h.apply entry (hnext entry rfl), ?_⟩
      by_cases hclose : entry.type = .closeSession ∧ entry.sessionID = s
      · have hcloses : Closes s (.entry entry) := ⟨entry, rfl, hclose⟩
        simp [hclose, hcloses]
      · have hcloses : ¬ Closes s (.entry entry) := by
          rintro ⟨other, heq, hother⟩
          cases heq
          exact hclose hother
        simp [hclose, hcloses]
  | restore identity index term =>
      simp only [SessionMachine.perform,
        restore_snapshot identity index term rfl h.counted] at hperform
      split at hperform
      · simp at hperform
      · rw [← Except.ok.inj hperform]
        exact ⟨state, h, by simp [Closes]⟩

theorem Cached.performAll {m m' : SessionMachine} {s : SessionID} {state : SessionState}
    {q : UInt64} {existed : Bool} (h : m.Cached s state q existed)
    {operations : List Operation}
    (hnext : ∀ entry ∈ m.effectsDuring operations,
      ¬ (entry.sessionID = s ∧ entry.sequence = q + 1))
    (hperform : m.performAll operations = .ok m') :
    ∃ state', m'.Cached s state' q existed ∧
      (state' = .active ↔
        state = .active ∧ ∀ operation ∈ operations, ¬ Closes s operation) := by
  induction operations generalizing m state with
  | nil =>
      rw [← Except.ok.inj hperform]
      exact ⟨state, h, by simp⟩
  | cons operation operations ih =>
      cases hfirst : m.perform operation with
      | error e => simp [SessionMachine.performAll, hfirst] at hperform
      | ok next =>
          simp only [SessionMachine.performAll, hfirst] at hperform
          simp only [effectsDuring, hfirst, List.mem_append] at hnext
          obtain ⟨middle, hmiddle, hmiddleActive⟩ := h.perform
            (fun entry heq heffective => hnext entry (.inl (by simp [heq, heffective])))
            hfirst
          obtain ⟨final, hfinal, hfinalActive⟩ := ih hmiddle
            (fun entry hmem => hnext entry (.inr hmem)) hperform
          refine ⟨final, hfinal, ?_⟩
          rw [hfinalActive, hmiddleActive, List.forall_mem_cons, and_assoc]

theorem Effective.cached {m : SessionMachine} {entry : LogEntry}
    (hcounted : m.active = m.activeSessions.card) (h : m.Effective entry) :
    (m.apply entry).1.Cached entry.sessionID .active entry.sequence
        (m.apply entry).2.existed ∧
      (m.apply entry).2.failure = .succeeded ∧ entry.sequence ≠ 0 := by
  obtain ⟨hmutation, record, hexpects⟩ := (effective_iff m entry).mp h
  refine ⟨⟨active_apply entry hcounted, ?_⟩, ?_, hexpects.positive⟩
  · rw [apply_expects hmutation hexpects]
    simp [mutated, hexpects.active]
  · rw [apply_expects hmutation hexpects]

theorem Cached.evaluateMutation {m : SessionMachine} {s : SessionID} {state : SessionState}
    {q : UInt64} {existed : Bool} (h : m.Cached s state q existed) (hq : q ≠ 0) :
    m.evaluateMutation s q =
      (if state = .active then { sessionID := s, sequence := q, existed := existed }
        else { sessionID := s, sequence := q, failure := .closed }, false) := by
  cases state <;> simp [SessionMachine.evaluateMutation, h.lookup, hq]

theorem apply_of_evaluateMutation {m : SessionMachine} {entry : LogEntry}
    {result : ProposalResult} (hmutation : IsMutation entry)
    (h : m.evaluateMutation entry.sessionID entry.sequence = (result, false)) :
    m.apply entry = (m, result) := by
  rcases hmutation with htype | htype <;> simp [SessionMachine.apply, htype, h]

def Replays (m : SessionMachine) (s : SessionID) (q : UInt64) (failure : SessionFailure)
    (existed : Bool) : Prop :=
  (∀ retry : LogEntry, IsMutation retry → retry.sessionID = s → retry.sequence = q →
    (m.apply retry).1 = m ∧ (m.apply retry).2.failure = failure ∧
      (m.apply retry).2.existed = existed) ∧
  (m.evaluateMutation s q).2 = false ∧ (m.evaluateMutation s q).1.failure = failure ∧
    (m.evaluateMutation s q).1.existed = existed

theorem Cached.replays_iff {m : SessionMachine} {s : SessionID} {state : SessionState}
    {q : UInt64} {existed : Bool} (h : m.Cached s state q existed) (hq : q ≠ 0) :
    m.Replays s q .succeeded existed ↔ state = .active := by
  have heval := h.evaluateMutation hq
  constructor
  · rintro ⟨-, -, hfailure, -⟩
    rw [heval] at hfailure
    by_contra hstate
    simp [hstate] at hfailure
  · intro hstate
    rw [if_pos hstate] at heval
    refine ⟨?_, by simp [heval]⟩
    rintro retry hmutation rfl rfl
    simp [apply_of_evaluateMutation hmutation heval]

end SessionMachine

open SessionMachine

/--
A retry replays the result of the mutation that took effect exactly when no
CloseSession of its session came in between.
-/
theorem retry_replays_iff (limit : Int) (before between : List Operation)
    (m m' : SessionMachine) (entry : LogEntry)
    (hbefore : (newSessionMachine limit).performAll before = .ok m)
    (heffect : m.Effective entry)
    (hbetween : (m.apply entry).1.performAll between = .ok m')
    (hnext : ∀ other ∈ (m.apply entry).1.effectsDuring between,
      ¬ (other.sessionID = entry.sessionID ∧ other.sequence = entry.sequence + 1)) :
    m'.Replays entry.sessionID entry.sequence (m.apply entry).2.failure
        (m.apply entry).2.existed ↔
      ∀ operation ∈ between, ¬ Closes entry.sessionID operation := by
  have hcounted : m.active = m.activeSessions.card := performAll_counted rfl hbefore
  obtain ⟨hcached, hsucceeded, hpositive⟩ := heffect.cached hcounted
  obtain ⟨state, hfinal, hactive⟩ := hcached.performAll hnext hbetween
  rw [hsucceeded, hfinal.replays_iff hpositive, hactive]
  simp

def openEntry : LogEntry := { index := 1, term := 1, type := .openSession }

def setEntry : LogEntry := { index := 2, term := 1, type := .set, sequence := 1 }

def closeEntry : LogEntry := { index := 3, term := 1, type := .closeSession }

def openedMachine : SessionMachine := ((newSessionMachine 1).apply openEntry).1

theorem retry_replays_after_noOp :
    ((openedMachine.apply setEntry).1.apply { index := 3, term := 1, type := .noOp }).1.Replays
      setEntry.sessionID setEntry.sequence .succeeded false :=
  (retry_replays_iff 1 [.entry openEntry] [.entry { index := 3, term := 1, type := .noOp }]
    openedMachine _ setEntry rfl (by decide) rfl (by decide)).mpr (by
      rintro operation hmem ⟨entry, rfl, htype, -⟩
      simp only [List.mem_singleton, Operation.entry.injEq] at hmem
      simp [hmem] at htype)

/-- The SET took effect; after CloseSession its retry is answered with another result. -/
theorem retry_after_close_not_replayed :
    openedMachine.Effective setEntry ∧
      (openedMachine.apply setEntry).2.failure = .succeeded ∧
      ((openedMachine.apply setEntry).1.apply closeEntry).2.failure = .succeeded ∧
      (((openedMachine.apply setEntry).1.apply closeEntry).1.apply setEntry).2.failure =
        .closed ∧
      ¬ ((openedMachine.apply setEntry).1.apply closeEntry).1.Replays setEntry.sessionID
        setEntry.sequence (openedMachine.apply setEntry).2.failure
        (openedMachine.apply setEntry).2.existed := by
  refine ⟨by decide, by decide, by decide, by decide, ?_⟩
  intro hreplays
  exact absurd hreplays.2.2.1 (by decide)

end QuorumKV.Session
