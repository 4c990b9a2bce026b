import QuorumKV.Session.Machine

/-!
# At-most-once effects

What a whole run of committed entries does to a fresh session machine.  The
per-session facts follow the life of one record: it is absent, then opened
once, then advanced one sequence at a time, then closed for good.
-/

namespace QuorumKV.Session

open Raft

namespace SessionMachine

/-- The entry is a mutation that actually changes the machine. -/
def Effective (m : SessionMachine) (entry : LogEntry) : Prop :=
  IsMutation entry ∧ (m.apply entry).1 ≠ m

instance (m : SessionMachine) (entry : LogEntry) : Decidable (m.Effective entry) :=
  inferInstanceAs (Decidable (_ ∧ _))

def effects (m : SessionMachine) : List LogEntry → List LogEntry
  | [] => []
  | entry :: entries =>
      (if m.Effective entry then [entry] else []) ++ effects (m.apply entry).1 entries

def activeSessions (m : SessionMachine) : Finset SessionID :=
  m.sessions.keys.filter fun s => (m.recordOf s).state = .active

/-! ## One step, seen from one session -/

theorem recordOf_of_lookup {m : SessionMachine} {s : SessionID} {record : SessionRecord}
    (h : m.sessions.lookup s = some record) : m.recordOf s = record := by
  simp [recordOf, h]

theorem effective_iff (m : SessionMachine) (entry : LogEntry) :
    m.Effective entry ↔
      IsMutation entry ∧ ∃ record, m.Expects entry.sessionID entry.sequence record := by
  refine and_congr_right fun hmutation => ?_
  have htransition := m.apply_transition entry
  generalize m.apply entry = applied at htransition
  cases htransition with
  | unchanged result _ _ notExpected =>
      simpa using fun record hexpects => notExpected hmutation record hexpects
  | opened htype | closed htype =>
      rcases hmutation with h | h <;> simp [htype] at h
  | performed _ record hexpects =>
      refine iff_of_true ?_ ⟨record, hexpects⟩
      intro hsame
      have hlookup := congrArg (fun m => m.sessions.lookup entry.sessionID) hsame
      simp only [Finmap.lookup_insert, hexpects.lookup, Option.some.injEq] at hlookup
      have hsequence : entry.sequence = record.lastSequence :=
        congrArg SessionRecord.lastSequence hlookup
      have hnat := hexpects.toNat_eq
      rw [hsequence] at hnat
      omega

theorem present_apply {m : SessionMachine} {s : SessionID} (entry : LogEntry)
    (h : (m.sessions.lookup s).isSome) :
    ((m.apply entry).1.sessions.lookup s).isSome := by
  have htransition := m.apply_transition entry
  generalize m.apply entry = applied at htransition
  cases htransition <;>
    first
    | exact h
    | (by_cases hs : s = entry.sessionID
       · subst hs
         simp
       · simpa [Finmap.lookup_insert_of_ne _ hs] using h)

def Closed (m : SessionMachine) (s : SessionID) : Prop :=
  ∃ record, m.sessions.lookup s = some record ∧ record.state = .permanentlyClosed

theorem closed_apply {m : SessionMachine} {s : SessionID} (entry : LogEntry)
    (h : m.Closed s) : (m.apply entry).1.Closed s := by
  obtain ⟨record, hlookup, hclosed⟩ := h
  have hother : ∀ {other : SessionRecord}, other.state = .active →
      m.sessions.lookup entry.sessionID = some other → s ≠ entry.sessionID := by
    rintro other hactive hother rfl
    rw [hlookup, Option.some.injEq] at hother
    simp [← hother, hclosed] at hactive
  have htransition := m.apply_transition entry
  generalize m.apply entry = applied at htransition
  cases htransition with
  | unchanged => exact ⟨record, hlookup, hclosed⟩
  | opened _ fresh =>
      have hs : s ≠ entry.sessionID := by
        rintro rfl
        simp [hlookup] at fresh
      exact ⟨record, by simpa [Finmap.lookup_insert_of_ne _ hs] using hlookup, hclosed⟩
  | closed _ other hfound hactive =>
      have hs := hother hactive hfound
      exact ⟨record, by simpa [Finmap.lookup_insert_of_ne _ hs] using hlookup, hclosed⟩
  | performed _ other hexpects =>
      have hs := hother hexpects.active hexpects.lookup
      exact ⟨record, by simpa [Finmap.lookup_insert_of_ne _ hs] using hlookup, hclosed⟩

@[simp] theorem apply_limit (m : SessionMachine) (entry : LogEntry) :
    (m.apply entry).1.limit = m.limit := by
  have htransition := m.apply_transition entry
  generalize m.apply entry = applied at htransition
  cases htransition <;> rfl

/-! ## The count of open sessions -/

theorem mem_activeSessions {m : SessionMachine} {s : SessionID} :
    s ∈ m.activeSessions ↔
      ∃ record, m.sessions.lookup s = some record ∧ record.state = .active := by
  simp only [activeSessions, Finset.mem_filter, Finmap.mem_keys, Finmap.mem_iff]
  constructor
  · rintro ⟨⟨record, hlookup⟩, hactive⟩
    exact ⟨record, hlookup, by rwa [recordOf_of_lookup hlookup] at hactive⟩
  · rintro ⟨record, hlookup, hactive⟩
    exact ⟨⟨record, hlookup⟩, by rwa [recordOf_of_lookup hlookup]⟩

theorem activeSessions_insert_active (m : SessionMachine) (s : SessionID)
    {record : SessionRecord} (h : record.state = .active) (values : Values) (active : Int) :
    ({ m with sessions := m.sessions.insert s record, values := values, active := active
        } : SessionMachine).activeSessions = insert s m.activeSessions := by
  ext other
  simp only [Finset.mem_insert, mem_activeSessions]
  by_cases hs : other = s
  · subst hs
    simp [h]
  · simp [Finmap.lookup_insert_of_ne _ hs, hs]

theorem activeSessions_insert_closed (m : SessionMachine) (s : SessionID)
    (record : SessionRecord) (h : record.state = .permanentlyClosed) (active : Int) :
    ({ m with sessions := m.sessions.insert s record, active := active
        } : SessionMachine).activeSessions = m.activeSessions.erase s := by
  ext other
  simp only [Finset.mem_erase, mem_activeSessions]
  by_cases hs : other = s
  · subst hs
    simp [h]
  · simp [Finmap.lookup_insert_of_ne _ hs, hs]

theorem active_apply {m : SessionMachine} (entry : LogEntry)
    (h : m.active = m.activeSessions.card) :
    (m.apply entry).1.active = (m.apply entry).1.activeSessions.card := by
  have htransition := m.apply_transition entry
  generalize m.apply entry = applied at htransition
  cases htransition with
  | unchanged => exact h
  | opened _ fresh =>
      have hnot : entry.sessionID ∉ m.activeSessions := by
        simp [mem_activeSessions, fresh]
      have hinsert := activeSessions_insert_active m entry.sessionID
        (show ({ state := .active } : SessionRecord).state = .active from rfl)
        m.values (m.active + 1)
      dsimp only
      rw [hinsert, Finset.card_insert_of_notMem hnot, h]
      push_cast
      rfl
  | closed _ record hlookup hactive =>
      have hmem : entry.sessionID ∈ m.activeSessions :=
        mem_activeSessions.mpr ⟨record, hlookup, hactive⟩
      have herase := activeSessions_insert_closed m entry.sessionID
        { record with state := .permanentlyClosed } rfl (m.active - 1)
      have hpositive := Finset.card_pos.mpr ⟨_, hmem⟩
      dsimp only
      rw [herase, Finset.card_erase_of_mem hmem, h]
      omega
  | performed _ record hexpects =>
      have hmem : entry.sessionID ∈ m.activeSessions :=
        mem_activeSessions.mpr ⟨record, hexpects.lookup, hexpects.active⟩
      have hinsert := activeSessions_insert_active m entry.sessionID
        (show (mutated record entry (m.reportsExisted entry)).state = .active from
          hexpects.active) (performMutation m.values entry) m.active
      dsimp only
      rw [hinsert, Finset.insert_eq_of_mem hmem, h]

theorem active_le_apply {m : SessionMachine} (entry : LogEntry)
    (h : m.active ≤ max m.limit 0) :
    (m.apply entry).1.active ≤ max (m.apply entry).1.limit 0 := by
  have htransition := m.apply_transition entry
  generalize m.apply entry = applied at htransition
  cases htransition with
  | unchanged => exact h
  | opened _ _ room =>
      simp only
      omega
  | closed =>
      simp only
      omega
  | performed => exact h

/-! ## Whole runs -/

theorem applyAll_invariant {P : SessionMachine → Prop}
    (hstep : ∀ m entry, P m → P (m.apply entry).1) :
    ∀ (entries : List LogEntry) {m : SessionMachine}, P m → P (m.applyAll entries)
  | [], _, h => h
  | entry :: entries, m, h =>
      applyAll_invariant hstep entries (hstep m entry h)

/-- The open sessions of a run are counted, and stay within a limit that is not negative. -/
theorem applyAll_counted (limit : Int) (entries : List LogEntry) :
    ((newSessionMachine limit).applyAll entries).active =
        ((newSessionMachine limit).applyAll entries).activeSessions.card ∧
      ((newSessionMachine limit).applyAll entries).limit = limit ∧
      ((newSessionMachine limit).applyAll entries).active ≤ max limit 0 := by
  have hrun := applyAll_invariant (P := fun m => m.active = m.activeSessions.card ∧
      m.limit = limit ∧ m.active ≤ max m.limit 0) ?_ entries (m := newSessionMachine limit) ?_
  · obtain ⟨hactive, hlimit, hle⟩ := hrun
    rw [hlimit] at hle
    exact ⟨hactive, hlimit, hle⟩
  · rintro m entry ⟨hactive, hlimit, hle⟩
    exact ⟨active_apply entry hactive, (m.apply_limit entry).trans hlimit,
      active_le_apply entry hle⟩
  · exact ⟨rfl, rfl, le_max_right limit 0⟩

theorem effects_append (m : SessionMachine) (left right : List LogEntry) :
    m.effects (left ++ right) = m.effects left ++ (m.applyAll left).effects right := by
  induction left generalizing m with
  | nil => rfl
  | cons entry left ih => simp [effects, applyAll, ih]

theorem recordOf_insert (m : SessionMachine) (s other : SessionID) (record : SessionRecord)
    (values : Values) (active : Int) :
    ({ m with sessions := m.sessions.insert s record, values := values, active := active
        } : SessionMachine).recordOf other =
      if other = s then record else m.recordOf other := by
  by_cases h : other = s
  · subst h
    simp [recordOf]
  · simp [recordOf, Finmap.lookup_insert_of_ne _ h, h]

theorem lastMutationResult_apply {m : SessionMachine} (entry : LogEntry)
    (h : ∀ s, (m.recordOf s).lastMutationResult = .succeeded) (s : SessionID) :
    ((m.apply entry).1.recordOf s).lastMutationResult = .succeeded := by
  have htransition := m.apply_transition entry
  generalize m.apply entry = applied at htransition
  cases htransition with
  | unchanged => exact h s
  | opened =>
      simp only [recordOf_insert]
      split
      · rfl
      · exact h s
  | closed _ record hlookup =>
      simp only [recordOf_insert]
      split
      · exact recordOf_of_lookup hlookup ▸ h entry.sessionID
      · exact h s
  | performed =>
      simp only [recordOf_insert]
      split
      · rfl
      · exact h s

theorem evaluateMutation_known {m : SessionMachine} {s : SessionID} (q : UInt64)
    (hknown : (m.sessions.lookup s).isSome)
    (hresults : (m.recordOf s).lastMutationResult = .succeeded) :
    (m.evaluateMutation s q).1.failure ≠ .unknown := by
  obtain ⟨record, hrecord⟩ := Option.isSome_iff_exists.mp hknown
  rw [recordOf_of_lookup hrecord] at hresults
  simp only [evaluateMutation, hrecord]
  split
  · simp
  · split
    · simp [hresults]
    · split
      · simp
      · split <;> simp

theorem lastSequence_apply_ineffective {m : SessionMachine} {entry : LogEntry}
    (h : ¬ m.Effective entry) (s : SessionID) :
    ((m.apply entry).1.recordOf s).lastSequence = (m.recordOf s).lastSequence := by
  rw [effective_iff] at h
  have htransition := m.apply_transition entry
  generalize m.apply entry = applied at htransition
  cases htransition with
  | unchanged => rfl
  | opened _ fresh =>
      dsimp only
      rw [recordOf_insert m entry.sessionID s { state := .active } m.values (m.active + 1)]
      split
      · next hs =>
          subst hs
          simp [recordOf, fresh]
      · rfl
  | closed _ record hlookup =>
      dsimp only
      rw [recordOf_insert m entry.sessionID s { record with state := .permanentlyClosed }
        m.values (m.active - 1)]
      split
      · next hs =>
          subst hs
          simp [recordOf, hlookup]
      · rfl
  | performed hmutation record hexpects => exact absurd ⟨hmutation, record, hexpects⟩ h

theorem effects_sequences (limit : Int) (entries : List LogEntry) (s : SessionID) :
    (((newSessionMachine limit).effects entries).filter (·.sessionID = s)).map
        (·.sequence.toNat) =
      List.range' 1
        (((newSessionMachine limit).applyAll entries).recordOf s).lastSequence.toNat := by
  induction entries using List.reverseRecOn with
  | nil => rfl
  | append_singleton entries entry ih =>
      rw [effects_append, applyAll_append, List.filter_append, List.map_append, ih]
      generalize (newSessionMachine limit).applyAll entries = m
      simp only [effects, applyAll, List.append_nil]
      by_cases heffective : m.Effective entry
      · obtain ⟨hmutation, record, hexpects⟩ := (effective_iff m entry).mp heffective
        have hinsert := recordOf_insert m entry.sessionID s
          (mutated record entry (m.reportsExisted entry))
          (performMutation m.values entry) m.active
        rw [if_pos heffective, apply_expects hmutation hexpects, hinsert]
        by_cases hs : entry.sessionID = s
        · subst hs
          have hnat := hexpects.toNat_eq
          simp only [decide_true, List.filter_cons_of_pos, List.filter_nil, List.map_cons,
            List.map_nil, if_true, recordOf_of_lookup hexpects.lookup, mutated, hnat]
          rw [List.range'_concat, Nat.one_mul, Nat.add_comm 1]
        · simp [hs, Ne.symm hs]
      · rw [if_neg heffective, lastSequence_apply_ineffective heffective]
        simp

theorem mem_of_mem_effects {m : SessionMachine} {entries : List LogEntry} {entry : LogEntry}
    (h : entry ∈ m.effects entries) : entry ∈ entries ∧ IsMutation entry := by
  induction entries generalizing m with
  | nil => simp [effects] at h
  | cons first rest ih =>
      rcases List.mem_append.mp h with hfirst | hrest
      · split at hfirst
        next heffective =>
          obtain rfl := List.mem_singleton.mp hfirst
          exact ⟨by simp, heffective.1⟩
        · simp at hfirst
      · obtain ⟨hmem, hmutation⟩ := ih hrest
        exact ⟨by simp [hmem], hmutation⟩

theorem mutation_of_lastSequence {limit : Int} {entries : List LogEntry} {s : SessionID}
    (h : (((newSessionMachine limit).applyAll entries).recordOf s).lastSequence ≠ 0) :
    ∃ entry ∈ entries, IsMutation entry ∧ entry.sessionID = s ∧
      entry.sequence = (((newSessionMachine limit).applyAll entries).recordOf s).lastSequence := by
  have hsequences := effects_sequences limit entries s
  generalize (((newSessionMachine limit).applyAll entries).recordOf s).lastSequence = last at *
  have hpos : 0 < last.toNat := by
    rw [Nat.pos_iff_ne_zero]
    exact fun hzero => h (UInt64.toNat_inj.mp (by simpa using hzero))
  have hmem : last.toNat ∈ List.range' 1 last.toNat := by
    rw [List.mem_range'_1]
    omega
  rw [← hsequences] at hmem
  obtain ⟨entry, hentry, hsequence⟩ := List.mem_map.mp hmem
  rw [List.mem_filter, decide_eq_true_eq] at hentry
  obtain ⟨hinside, hmutation⟩ := mem_of_mem_effects hentry.1
  exact ⟨entry, hinside, hmutation, hentry.2, UInt64.toNat_inj.mp hsequence⟩

/-- The key-value map is the one the effective mutations build. -/
theorem effects_values (m : SessionMachine) (entries : List LogEntry) :
    (m.applyAll entries).values = (m.effects entries).foldl performMutation m.values := by
  induction entries generalizing m with
  | nil => rfl
  | cons entry entries ih =>
      rw [applyAll, ih, effects, List.foldl_append]
      congr 1
      by_cases heffective : m.Effective entry
      · obtain ⟨hmutation, record, hexpects⟩ := (effective_iff m entry).mp heffective
        rw [if_pos heffective, apply_expects hmutation hexpects]
        rfl
      · rw [if_neg heffective]
        have htransition := m.apply_transition entry
        generalize m.apply entry = applied at htransition
        cases htransition with
        | unchanged => rfl
        | opened => rfl
        | closed => rfl
        | performed hmutation record hexpects =>
            exact absurd ((effective_iff m entry).mpr ⟨hmutation, record, hexpects⟩) heffective

end SessionMachine

/-! ## Positions of a run -/

section Positions

variable (limit : Int) (entries : List LogEntry)

def machineAt (i : Nat) : SessionMachine :=
  (newSessionMachine limit).applyAll (entries.take i)

def EffectAt (i : Nat) (s : SessionID) : Prop :=
  ∃ entry, entries[i]? = some entry ∧ entry.sessionID = s ∧
    (machineAt limit entries i).Effective entry

def OpenedAt (i : Nat) (s : SessionID) : Prop :=
  ∃ entry, entries[i]? = some entry ∧ entry.type = .openSession ∧ entry.sessionID = s ∧
    ((machineAt limit entries i).apply entry).2.failure = .succeeded

def ClosedAt (i : Nat) (s : SessionID) : Prop :=
  ∃ entry, entries[i]? = some entry ∧ entry.type = .closeSession ∧ entry.sessionID = s ∧
    ((machineAt limit entries i).apply entry).2.failure = .succeeded

variable {limit entries}

theorem machineAt_succ {i : Nat} {entry : LogEntry} (h : entries[i]? = some entry) :
    machineAt limit entries (i + 1) = ((machineAt limit entries i).apply entry).1 := by
  unfold machineAt
  rw [List.take_add_one, h]
  simp [SessionMachine.applyAll]

theorem machineAt_mono {P : SessionMachine → Prop}
    (hstep : ∀ m entry, P m → P (m.apply entry).1) {i j : Nat} (hij : i ≤ j)
    (h : P (machineAt limit entries i)) : P (machineAt limit entries j) := by
  have hsplit : entries.take j = entries.take i ++ (entries.take j).drop i := by
    have := List.take_append_drop i (entries.take j)
    rwa [List.take_take, min_eq_left hij, eq_comm] at this
  unfold machineAt at h ⊢
  rw [hsplit, SessionMachine.applyAll_append]
  exact SessionMachine.applyAll_invariant hstep _ h

theorem present_of_opened {i : Nat} {s : SessionID} (h : OpenedAt limit entries i s) :
    (machineAt limit entries i).sessions.lookup s = none ∧
      ((machineAt limit entries (i + 1)).sessions.lookup s).isSome := by
  obtain ⟨entry, hentry, htype, rfl, hsucceeded⟩ := h
  rw [machineAt_succ hentry]
  have htransition := (machineAt limit entries i).apply_transition entry
  generalize (machineAt limit entries i).apply entry = applied at htransition hsucceeded
  cases htransition with
  | unchanged _ notOpened => exact absurd hsucceeded (notOpened htype)
  | opened _ fresh => exact ⟨fresh, by simp⟩
  | closed hother =>
      simp [htype] at hother
  | performed hmutation =>
      rcases hmutation with hother | hother <;> simp [htype] at hother

theorem closed_of_closedAt {i : Nat} {s : SessionID} (h : ClosedAt limit entries i s) :
    (machineAt limit entries (i + 1)).Closed s := by
  obtain ⟨entry, hentry, htype, rfl, hsucceeded⟩ := h
  rw [machineAt_succ hentry]
  have htransition := (machineAt limit entries i).apply_transition entry
  generalize (machineAt limit entries i).apply entry = applied at htransition hsucceeded
  cases htransition with
  | unchanged _ _ notClosed => exact absurd hsucceeded (notClosed htype)
  | opened hother =>
      simp [htype] at hother
  | closed _ record => exact ⟨_, Finmap.lookup_insert _, rfl⟩
  | performed hmutation =>
      rcases hmutation with hother | hother <;> simp [htype] at hother

theorem opened_of_present {i : Nat} {s : SessionID}
    (h : ((machineAt limit entries i).sessions.lookup s).isSome) :
    ∃ o < i, OpenedAt limit entries o s := by
  induction i with
  | zero => simp [machineAt, SessionMachine.applyAll, newSessionMachine] at h
  | succ i ih =>
      by_cases hpresent : ((machineAt limit entries i).sessions.lookup s).isSome
      · obtain ⟨o, ho, hopened⟩ := ih hpresent
        exact ⟨o, by omega, hopened⟩
      · cases hentry : entries[i]? with
        | none =>
            have hshort : entries.length ≤ i := by simpa using hentry
            unfold machineAt at h hpresent
            rw [List.take_of_length_le (by omega)] at h hpresent
            exact absurd h hpresent
        | some entry =>
            refine ⟨i, by omega, entry, hentry, ?_⟩
            rw [machineAt_succ hentry] at h
            have htransition := (machineAt limit entries i).apply_transition entry
            generalize (machineAt limit entries i).apply entry = applied
              at htransition h ⊢
            -- Only an open adds a record; every other change updates one that is there.
            have hcreated : ∀ {record : SessionRecord} {m' : SessionMachine},
                ((machineAt limit entries i).sessions.insert entry.sessionID record)
                  = m'.sessions → (m'.sessions.lookup s).isSome → entry.sessionID = s := by
              intro record m' hm' hsome
              by_contra hs
              rw [← hm', Finmap.lookup_insert_of_ne _ (Ne.symm hs)] at hsome
              exact hpresent hsome
            cases htransition with
            | unchanged => exact absurd h hpresent
            | opened htype => exact ⟨htype, hcreated rfl h, rfl⟩
            | closed _ record hlookup =>
                have hs := hcreated rfl h
                rw [← hs, hlookup] at hpresent
                exact absurd rfl hpresent
            | performed _ record hexpects =>
                have hs := hcreated rfl h
                rw [← hs, hexpects.lookup] at hpresent
                exact absurd rfl hpresent

end Positions

/-- What at-most-once effects mean for a run of `entries` and one session. -/
structure AtMostOnce (limit : Int) (entries : List LogEntry) (s : SessionID) : Prop where
  /-- The effective mutations of `s` carry the sequences one, two, up to the last. -/
  sequences :
    (((newSessionMachine limit).effects entries).filter (·.sessionID = s)).map
        (·.sequence.toNat) =
      List.range' 1
        (((newSessionMachine limit).applyAll entries).recordOf s).lastSequence.toNat
  openedOnce : ∀ i j, OpenedAt limit entries i s → OpenedAt limit entries j s → i = j
  openedBefore : ∀ i, EffectAt limit entries i s → ∃ o < i, OpenedAt limit entries o s
  beforeClose : ∀ i c, EffectAt limit entries i s → ClosedAt limit entries c s → i < c
  /-- The key-value map is the result of just the effective mutations. -/
  values :
    ((newSessionMachine limit).applyAll entries).values =
      ((newSessionMachine limit).effects entries).foldl performMutation ∅
  /-- A mutation takes effect exactly when its open session expects its sequence next. -/
  effective : ∀ i entry, entries[i]? = some entry → IsMutation entry →
    ((machineAt limit entries i).Effective entry ↔
      ∃ record, (machineAt limit entries i).Expects entry.sessionID entry.sequence record)
  /-- Every other mutation leaves sessions and values unchanged. -/
  ineffective : ∀ i entry, entries[i]? = some entry → IsMutation entry →
    ¬ (machineAt limit entries i).Effective entry →
    (machineAt limit entries (i + 1)).sessions = (machineAt limit entries i).sessions ∧
      (machineAt limit entries (i + 1)).values = (machineAt limit entries i).values
  active : ∀ i, (machineAt limit entries i).active =
    (machineAt limit entries i).activeSessions.card
  withinLimit : 0 ≤ limit → ∀ i, (machineAt limit entries i).active ≤ limit
  noneAdmitted : limit < 0 → ∀ i, (machineAt limit entries i).active = 0
  /-- An identity that has been used and is not open is never open again. -/
  neverReopened : ∀ i j, i ≤ j →
    ((machineAt limit entries i).sessions.lookup s).isSome →
    s ∉ (machineAt limit entries i).activeSessions →
    s ∉ (machineAt limit entries j).activeSessions

theorem run_atMostOnce (limit : Int) (entries : List LogEntry) (s : SessionID) :
    AtMostOnce limit entries s where
  sequences := SessionMachine.effects_sequences limit entries s
  openedOnce := by
    have hle : ∀ i j, OpenedAt limit entries i s → OpenedAt limit entries j s → j ≤ i := by
      intro i j hi hj
      by_contra hlt
      have hpresent := machineAt_mono
        (P := fun m => (m.sessions.lookup s).isSome)
        (fun _ entry h => SessionMachine.present_apply entry h)
        (by omega : i + 1 ≤ j) (present_of_opened hi).2
      simp [(present_of_opened hj).1] at hpresent
    intro i j hi hj
    exact le_antisymm (hle j i hj hi) (hle i j hi hj)
  openedBefore := by
    rintro i ⟨entry, hentry, rfl, heffective⟩
    obtain ⟨-, record, hexpects⟩ := (SessionMachine.effective_iff _ _).mp heffective
    exact opened_of_present (by rw [hexpects.lookup]; rfl)
  beforeClose := by
    rintro i c ⟨entry, hentry, rfl, heffective⟩ hclosed
    by_contra hlt
    obtain ⟨hmutation, record, hexpects⟩ := (SessionMachine.effective_iff _ _).mp heffective
    have hne : c ≠ i := by
      rintro rfl
      obtain ⟨other, hother, htype, -⟩ := hclosed
      rw [hentry, Option.some.injEq] at hother
      subst hother
      rcases hmutation with h | h <;> simp [htype] at h
    obtain ⟨other, hlookup, hstate⟩ := machineAt_mono
      (P := fun m => m.Closed entry.sessionID)
      (fun _ entry h => SessionMachine.closed_apply entry h)
      (by omega : c + 1 ≤ i) (closed_of_closedAt hclosed)
    rw [hexpects.lookup, Option.some.injEq] at hlookup
    simp [← hlookup, hexpects.active] at hstate
  values := SessionMachine.effects_values (newSessionMachine limit) entries
  effective := by
    intro i entry _ hmutation
    rw [SessionMachine.effective_iff]
    exact and_iff_right hmutation
  ineffective := by
    intro i entry hentry hmutation hineffective
    have hsame : ((machineAt limit entries i).apply entry).1 = machineAt limit entries i := by
      by_contra hchanged
      exact hineffective ⟨hmutation, hchanged⟩
    rw [machineAt_succ hentry, hsame]
    exact ⟨rfl, rfl⟩
  active i := (SessionMachine.applyAll_counted limit (entries.take i)).1
  withinLimit hlimit i := by
    have hle := (SessionMachine.applyAll_counted limit (entries.take i)).2.2
    rwa [max_eq_left hlimit] at hle
  noneAdmitted hlimit i := by
    obtain ⟨hactive, -, hle⟩ := SessionMachine.applyAll_counted limit (entries.take i)
    rw [max_eq_right hlimit.le] at hle
    rw [machineAt]
    omega
  neverReopened := by
    intro i j hij hused hinactive hactive
    obtain ⟨record, hlookup⟩ := Option.isSome_iff_exists.mp hused
    have hclosed : (machineAt limit entries i).Closed s := by
      refine ⟨record, hlookup, ?_⟩
      cases hstate : record.state with
      | permanentlyClosed => rfl
      | active =>
          exact absurd (SessionMachine.mem_activeSessions.mpr ⟨record, hlookup, hstate⟩)
            hinactive
    obtain ⟨other, hother, hstate⟩ := machineAt_mono
      (P := fun m => m.Closed s)
      (fun _ entry h => SessionMachine.closed_apply entry h) hij hclosed
    obtain ⟨found, hfound, hfoundState⟩ := SessionMachine.mem_activeSessions.mp hactive
    rw [hother, Option.some.injEq] at hfound
    simp [hfound, hfoundState] at hstate

end QuorumKV.Session
