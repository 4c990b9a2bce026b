import QuorumKV.Session.AtMostOnce

/-!
# Outcomes of mutations

A mutation is told to have succeeded when it takes effect, and again whenever the
session's record still holds its sequence.  Either way the result comes from one
position of the run: the one at which the mutation took effect.
-/

namespace QuorumKV.Session

open Raft

namespace SessionMachine

variable {m : SessionMachine} {entry : LogEntry} {s : SessionID} {q : UInt64}

theorem Effective.outcome (h : m.Effective entry) : ∃ existed,
    (m.apply entry).2 =
        { sessionID := entry.sessionID, sequence := entry.sequence, existed := existed } ∧
      ((m.apply entry).1.recordOf entry.sessionID).lastSequence = entry.sequence ∧
      ((m.apply entry).1.recordOf entry.sessionID).lastDeleteExisted = existed ∧
      (m.recordOf entry.sessionID).lastSequence.toNat + 1 = entry.sequence.toNat := by
  obtain ⟨hmutation, record, hexpects⟩ := (effective_iff m entry).mp h
  rw [apply_expects hmutation hexpects, recordOf_of_lookup hexpects.lookup, hexpects.toNat_eq]
  exact ⟨_, rfl, by simp [recordOf_insert, mutated]⟩

theorem recordOf_apply (m : SessionMachine) (entry : LogEntry) (s : SessionID) :
    (m.Effective entry ∧ entry.sessionID = s) ∨
      ∃ state, (m.apply entry).1.recordOf s = { m.recordOf s with state := state } := by
  rw [effective_iff]
  have htransition := m.apply_transition entry
  generalize m.apply entry = applied at htransition
  by_cases hs : entry.sessionID = s
  · subst hs
    cases htransition with
    | unchanged => exact .inr ⟨_, rfl⟩
    | opened _ fresh => exact .inr ⟨.active, by simp [recordOf, fresh]⟩
    | closed _ record hlookup => exact .inr ⟨.permanentlyClosed, by simp [recordOf, hlookup]⟩
    | performed hmutation record hexpects => exact .inl ⟨⟨hmutation, record, hexpects⟩, rfl⟩
  · refine .inr ⟨(m.recordOf s).state, ?_⟩
    cases htransition <;> simp [recordOf_insert, Ne.symm hs]

theorem lastSequence_le_apply (m : SessionMachine) (entry : LogEntry) (s : SessionID) :
    (m.recordOf s).lastSequence.toNat ≤ ((m.apply entry).1.recordOf s).lastSequence.toNat := by
  rcases m.recordOf_apply entry s with ⟨heffective, rfl⟩ | ⟨state, hrecord⟩
  · obtain ⟨existed, -, hlast, -, hnext⟩ := heffective.outcome
    rw [hlast]
    omega
  · rw [hrecord]

theorem evaluateMutation_recorded (h : (m.evaluateMutation s q).2 = false)
    (hsucceeded : (m.evaluateMutation s q).1.failure = .succeeded) :
    (m.evaluateMutation s q).1 =
      { sessionID := s, sequence := q, existed := (m.recordOf s).lastDeleteExisted } := by
  have hcached := evaluateMutation_cached h hsucceeded
  unfold evaluateMutation at hsucceeded ⊢
  cases hlookup : m.sessions.lookup s with
  | none => simp [hlookup] at hsucceeded
  | some record =>
      rw [recordOf_of_lookup hlookup] at hcached ⊢
      simp only [hlookup, if_pos hcached] at hsucceeded ⊢
      split at hsucceeded
      · simp at hsucceeded
      · next hopen => simpa [hopen] using hsucceeded

end SessionMachine

def EffectOf (limit : Int) (entries : List LogEntry) (s : SessionID) (q : UInt64)
    (position : Nat) (result : ProposalResult) : Prop :=
  ∃ entry, entries[position]? = some entry ∧ entry.sessionID = s ∧ entry.sequence = q ∧
    (machineAt limit entries position).Effective entry ∧
    result = ((machineAt limit entries position).apply entry).2

section Positions

variable {limit : Int} {entries : List LogEntry} {s : SessionID} {q : UInt64} {i j : Nat}
  {result result' : ProposalResult}

/-- Two effects of one sequence are one: the later would find the sequence reached. -/
theorem EffectOf.le (h : EffectOf limit entries s q i result)
    (h' : EffectOf limit entries s q j result') : j ≤ i := by
  obtain ⟨entry, hentry, rfl, rfl, heffective, -⟩ := h
  obtain ⟨other, -, hsession, hsequence, heffective', -⟩ := h'
  obtain ⟨-, -, hlast, -, -⟩ := heffective.outcome
  obtain ⟨-, -, -, -, hnext⟩ := heffective'.outcome
  by_contra hlt
  have hreached := machineAt_mono
    (P := fun m => entry.sequence.toNat ≤ (m.recordOf entry.sessionID).lastSequence.toNat)
    (fun m other hle => hle.trans (m.lastSequence_le_apply other _)) (by omega : i + 1 ≤ j)
    (by rw [machineAt_succ hentry, hlast])
  rw [hsession, hsequence] at hnext
  omega

theorem EffectOf.unique (h : EffectOf limit entries s q i result)
    (h' : EffectOf limit entries s q j result') : i = j ∧ result = result' := by
  obtain rfl := le_antisymm (h'.le h) (h.le h')
  obtain ⟨entry, hentry, -, -, -, rfl⟩ := h
  obtain ⟨other, hother, -, -, -, rfl⟩ := h'
  obtain rfl := Option.some.inj (hentry.symm.trans hother)
  exact ⟨rfl, rfl⟩

theorem EffectOf.mono {entries' : List LogEntry} (h : EffectOf limit entries s q i result)
    (hfront : entries <+: entries') : EffectOf limit entries' s q i result := by
  obtain ⟨more, rfl⟩ := hfront
  obtain ⟨entry, hentry, hsession, hsequence, heffective, hresult⟩ := h
  have hinside := (List.getElem?_eq_some_iff.mp hentry).1
  have hsame : machineAt limit entries i = machineAt limit (entries ++ more) i := by
    rw [machineAt, machineAt, List.take_append_of_le_length hinside.le]
  rw [hsame] at heffective hresult
  exact ⟨entry, by rw [List.getElem?_append_left hinside, hentry], hsession, hsequence, heffective,
    hresult⟩

theorem effectOf_lastSequence (hi : i ≤ entries.length)
    (hlast : ((machineAt limit entries i).recordOf s).lastSequence = q) (hq : q ≠ 0) :
    ∃ position, EffectOf limit entries s q position
      { sessionID := s
        sequence := q
        existed := ((machineAt limit entries i).recordOf s).lastDeleteExisted } := by
  induction i with
  | zero => exact absurd hlast.symm hq
  | succ i ih =>
      have hentry : entries[i]? = some entries[i] := List.getElem?_eq_getElem hi
      rw [machineAt_succ hentry] at hlast ⊢
      rcases (machineAt limit entries i).recordOf_apply entries[i] s with
        ⟨heffective, rfl⟩ | ⟨state, hrecord⟩
      · obtain ⟨existed, hresult, hsequence, hexisted, -⟩ := heffective.outcome
        rw [hexisted]
        exact ⟨i, _, hentry, rfl, hsequence.symm.trans hlast, heffective,
          by rw [hresult, ← hlast, hsequence]⟩
      · rw [hrecord] at hlast ⊢
        exact ih (by omega) hlast

/-- A success told without a proposal is that of an earlier effect. -/
theorem effectOf_evaluateMutation (hi : i ≤ entries.length)
    (h : (machineAt limit entries i).evaluateMutation s q = (result, false))
    (hsucceeded : result.failure = .succeeded) :
    ∃ position, EffectOf limit entries s q position result := by
  have hfalse := congrArg Prod.snd h
  obtain rfl := congrArg Prod.fst h
  obtain ⟨hlast, hq⟩ := SessionMachine.evaluateMutation_cached hfalse hsucceeded
  rw [SessionMachine.evaluateMutation_recorded hfalse hsucceeded]
  exact effectOf_lastSequence hi hlast.symm hq

theorem effectOf_apply {entry : LogEntry} (hentry : entries[i]? = some entry)
    (hmutation : IsMutation entry)
    (hsucceeded : ((machineAt limit entries i).apply entry).2.failure = .succeeded) :
    ∃ position, EffectOf limit entries entry.sessionID entry.sequence position
      ((machineAt limit entries i).apply entry).2 := by
  cases heval :
      ((machineAt limit entries i).evaluateMutation entry.sessionID entry.sequence).2 with
  | true =>
      obtain ⟨hexpects, -⟩ := SessionMachine.evaluateMutation_true heval
      exact ⟨i, entry, hentry, rfl, rfl,
        (SessionMachine.effective_iff _ _).mpr ⟨hmutation, hexpects⟩, rfl⟩
  | false =>
      have hresult : ((machineAt limit entries i).apply entry).2 =
          ((machineAt limit entries i).evaluateMutation entry.sessionID entry.sequence).1 := by
        rcases hmutation with htype | htype <;> simp [SessionMachine.apply, htype, heval]
      have hi : i ≤ entries.length := (List.getElem?_eq_some_iff.mp hentry).1.le
      rw [hresult] at hsucceeded ⊢
      exact effectOf_evaluateMutation hi (Prod.ext rfl heval) hsucceeded

end Positions

end QuorumKV.Session
