import QuorumKV.Foundation.Terms
import QuorumKV.Raft.Step

/-!
# The log of a core as part of a whole log

Compaction takes the front of a core's log away.  `Node.Holds n log` says that
the core keeps `log` from its base on, with its base, last index, and last term
as `log` has them.  Every operation of the core on its log is an operation on
the whole log.
-/

namespace QuorumKV.Raft

open Foundation

/-- Positions count from one and entries carry theirs. -/
def Numbered (log : List LogEntry) : Prop :=
  ∀ offset entry, log[offset]? = some entry → entry.index = offset + 1

theorem Numbered.front {log other : List LogEntry} (h : Numbered log) (hfront : other <+: log) :
    Numbered other := by
  intro offset entry hentry
  obtain ⟨rest, rfl⟩ := hfront
  refine h offset entry ?_
  rw [List.getElem?_append_left (List.getElem?_eq_some_iff.mp hentry).1, hentry]

theorem Numbered.append {log entries : List LogEntry} (h : Numbered log)
    (hentries : ∀ offset entry, entries[offset]? = some entry →
      entry.index = log.length + offset + 1) : Numbered (log ++ entries) := by
  intro offset entry hentry
  rcases Nat.lt_or_ge offset log.length with hlt | hge
  · rw [List.getElem?_append_left hlt] at hentry
    exact h offset entry hentry
  · rw [List.getElem?_append_right hge] at hentry
    have := hentries _ entry hentry
    omega

theorem Numbered.index_getLast {log : List LogEntry} (h : Numbered log) {entry : LogEntry}
    (hlast : log.getLast? = some entry) : entry.index = log.length := by
  have hne : log ≠ [] := by
    rintro rfl
    simp at hlast
  have hpos := List.length_pos_iff.mpr hne
  rw [List.getLast?_eq_getElem?] at hlast
  have := h _ entry hlast
  omega

theorem Numbered.first_of_drop {log : List LogEntry} {recovered : RecoveredState}
    (hnumbered : Numbered log)
    (hlog : recovered.log = log.drop recovered.snapshotIndex) :
    ∀ first rest, recovered.log = first :: rest →
      first.index = recovered.snapshotIndex + 1 := by
  intro first rest hcons
  apply hnumbered
  rw [← List.head?_drop, ← hlog, hcons]
  rfl

theorem lastTerm_getLast {log : List LogEntry} {entry : LogEntry}
    (hlast : log.getLast? = some entry) : lastTerm LogEntry.term log = entry.term := by
  have hne : log ≠ [] := by
    rintro rfl
    simp at hlast
  obtain ⟨count, hcount⟩ := Nat.exists_eq_succ_of_ne_zero (List.length_pos_iff.mpr hne).ne'
  rw [List.getLast?_eq_getElem?, hcount] at hlast
  simp only [Nat.succ_eq_add_one, Nat.add_sub_cancel] at hlast
  simp only [lastTerm, hcount, termAt, hlast, Option.elim_some]

namespace Node

structure Holds (n : Node) (log : List LogEntry) : Prop where
  base_le : n.logBaseIndex ≤ log.length
  baseTerm : n.logBaseTerm = Foundation.termAt LogEntry.term log n.logBaseIndex
  log_eq : n.log = log.drop n.logBaseIndex
  lastIndex : n.lastLogIndex = log.length
  lastTerm : n.lastLogTerm = lastTerm LogEntry.term log

def logParts (n : Node) : Nat × Nat × List LogEntry × Nat × Nat :=
  (n.logBaseIndex, n.logBaseTerm, n.log, n.lastLogIndex, n.lastLogTerm)

variable {n m : Node} {log : List LogEntry}

namespace Holds

theorem of_parts (h : n.Holds log) (hsame : m.logParts = n.logParts) : m.Holds log := by
  simp only [logParts, Prod.mk.injEq] at hsame
  obtain ⟨hbase, hbaseTerm, hlog, hlast, hlastTerm⟩ := hsame
  exact ⟨hbase ▸ h.base_le, by rw [hbaseTerm, hbase, h.baseTerm], by rw [hlog, hbase, h.log_eq],
    hlast.trans h.lastIndex, hlastTerm.trans h.lastTerm⟩

theorem termAt_eq (h : n.Holds log) {index : Nat} (hle : n.logBaseIndex ≤ index) :
    n.termAt index = Foundation.termAt LogEntry.term log index := by
  by_cases heq : index = n.logBaseIndex
  · subst heq
    simp [Node.termAt, h.baseTerm]
  · by_cases hlast : index ≤ log.length
    · have hnot : ¬ (index ≤ n.logBaseIndex ∨ index > n.lastLogIndex) := by
        rw [h.lastIndex]
        omega
      obtain ⟨offset, rfl⟩ := Nat.exists_eq_add_of_lt (Nat.lt_of_le_of_ne hle (Ne.symm heq))
      simp only [Node.termAt, if_neg heq, if_neg hnot, h.log_eq, Foundation.termAt,
        List.getElem?_drop]
      congr 2
      omega
    · have hbeyond : index ≤ n.logBaseIndex ∨ index > n.lastLogIndex := by
        rw [h.lastIndex]
        omega
      rw [Node.termAt, if_neg heq, if_pos hbeyond, termAt_beyond (by omega)]

theorem termAt_below (_ : n.Holds log) {index : Nat} (hlt : index < n.logBaseIndex) :
    n.termAt index = 0 := by
  rw [Node.termAt, if_neg (by omega), if_pos (.inl hlt.le)]

theorem termAt_of_ne (h : n.Holds log) {index : Nat} (hne : n.termAt index ≠ 0) :
    n.logBaseIndex ≤ index ∧ n.termAt index = Foundation.termAt LogEntry.term log index := by
  have hle : n.logBaseIndex ≤ index := by
    by_contra hlt
    exact hne (h.termAt_below (Nat.not_le.mp hlt))
  exact ⟨hle, h.termAt_eq hle⟩

theorem entry_eq (h : n.Holds log) {index : Nat} (hlt : n.logBaseIndex < index) :
    n.log[index - n.logBaseIndex - 1]? = log[index - 1]? := by
  rw [h.log_eq, List.getElem?_drop]
  congr 1
  omega

theorem matchesAt_iff (h : n.Holds log) {index term : Nat} :
    n.matchesAt index term = true ↔
      (index = 0 ∧ term = 0) ∨ (index ≤ log.length ∧ n.termAt index = term) := by
  simp [matchesAt, h.lastIndex]

/-! ## Operations on the log -/

theorem appendEntries (h : n.Holds log) {entries : List LogEntry} (hne : entries ≠ [])
    (hnumbered : Numbered (log ++ entries)) :
    (n.appendEntries entries).Holds (log ++ entries) := by
  have hlog : n.log ++ entries = (log ++ entries).drop n.logBaseIndex := by
    rw [h.log_eq, List.drop_append_of_le_length h.base_le]
  have hlast : (n.log ++ entries).getLast? = (log ++ entries).getLast? := by
    rw [List.getLast?_append_of_ne_nil _ hne, List.getLast?_append_of_ne_nil _ hne]
  obtain ⟨entry, hentry⟩ : ∃ entry, (log ++ entries).getLast? = some entry :=
    ⟨_, List.getLast?_eq_getLast_of_ne_nil (by simp [hne])⟩
  refine ⟨?_, ?_, hlog, ?_, ?_⟩
  · simp only [Node.appendEntries, List.length_append]
    exact h.base_le.trans (Nat.le_add_right _ _)
  · simp only [Node.appendEntries]
    rw [h.baseTerm, termAt_front (List.prefix_append _ _) h.base_le]
  · simp only [Node.appendEntries, hlast, hentry, Option.elim_some]
    exact hnumbered.index_getLast hentry
  · simp only [Node.appendEntries, hlast, hentry, Option.elim_some]
    exact (lastTerm_getLast hentry).symm

theorem truncateLog (h : n.Holds log) {first : Nat} (hbase : n.logBaseIndex < first)
    (hfirst : first ≤ log.length + 1) : (n.truncateLog first).Holds (log.take (first - 1)) := by
  have hlength : (log.take (first - 1)).length = first - 1 := by
    rw [List.length_take]
    omega
  have htruncated : ({ n with
      log := n.log.take (first - n.logBaseIndex - 1)
      lastLogIndex := first - 1
      lastLogTerm := Foundation.lastTerm LogEntry.term (log.take (first - 1)) } : Node).Holds
      (log.take (first - 1)) := by
    refine ⟨by simp only [hlength]; omega, ?_, ?_, hlength.symm, rfl⟩
    · simp only [h.baseTerm]
      rw [termAt_take (by omega)]
    · simp only [h.log_eq]
      rw [List.drop_take]
      congr 1
      omega
  refine ⟨htruncated.base_le, htruncated.baseTerm, htruncated.log_eq, htruncated.lastIndex, ?_⟩
  have hbelow : n.logBaseIndex ≤ first - 1 := by omega
  have hterm := htruncated.termAt_eq hbelow
  simp only [Foundation.lastTerm, hlength]
  exact hterm

theorem compactLog (h : n.Holds log) (happlied : n.lastApplied ≤ log.length)
    (index term : Nat) : (n.compactLog index term).Holds log := by
  unfold Node.compactLog
  split
  · exact h
  next hskip =>
    rw [not_or, not_or, not_not, Nat.not_le, Nat.not_lt] at hskip
    obtain ⟨hlt, hle, hterm⟩ := hskip
    refine ⟨hle.trans happlied, ?_, ?_, h.lastIndex, h.lastTerm⟩
    · simp only [← hterm, h.termAt_eq hlt.le]
    · simp only [h.log_eq, List.drop_drop]
      congr 1
      omega

end Holds

end Node

theorem Numbered.dropWhile_drop {log : List LogEntry} (h : Numbered log) (index base : Nat) :
    (log.drop base).dropWhile (fun entry => entry.index ≤ index) =
      log.drop (max base index) := by
  generalize hrest : log.drop base = rest
  induction rest generalizing base with
  | nil =>
      have hle := List.drop_eq_nil_iff.mp hrest
      rw [List.dropWhile_nil, List.drop_eq_nil_of_le (hle.trans (le_max_left _ _))]
  | cons entry rest ih =>
      have hentry : log[base]? = some entry := by
        rw [← List.head?_drop, hrest]
        rfl
      have hnext : log.drop (base + 1) = rest := by
        rw [← List.drop_drop, hrest]
        rfl
      have hindex := h base entry hentry
      by_cases hle : entry.index ≤ index
      · rw [List.dropWhile_cons_of_pos (by simpa using hle), ih (base + 1) hnext]
        congr 1
        omega
      · rw [List.dropWhile_cons_of_neg (by simpa using hle), max_eq_left (by omega), hrest]

namespace Node

variable {n : Node} {log : List LogEntry}

theorem Holds.installSnapshot_retained (h : n.Holds log) (hnumbered : Numbered log)
    {request : InstallSnapshot} (hbase : n.logBaseIndex ≤ request.snapshotIndex)
    (hle : request.snapshotIndex ≤ log.length)
    (hterm : request.snapshotTerm =
      Foundation.termAt LogEntry.term log request.snapshotIndex) :
    (n.installSnapshot request true).Holds log := by
  have hlog : n.log.dropWhile (fun entry => entry.index ≤ request.snapshotIndex) =
      log.drop request.snapshotIndex := by
    rw [h.log_eq, hnumbered.dropWhile_drop, max_eq_right hbase]
  unfold installSnapshot
  simp only [if_true, hlog]
  cases hlast : (log.drop request.snapshotIndex).getLast? with
  | none => exact ⟨hle, hterm, rfl, h.lastIndex, h.lastTerm⟩
  | some entry =>
      have hentry : log.getLast? = some entry := by
        rw [List.getLast?_drop] at hlast
        split at hlast
        · simp at hlast
        · exact hlast
      exact ⟨hle, hterm, rfl, hnumbered.index_getLast hentry, (lastTerm_getLast hentry).symm⟩

theorem Holds.installSnapshot_discarded (n : Node) {request : InstallSnapshot}
    (hlength : request.snapshotIndex = log.length)
    (hterm : request.snapshotTerm = Foundation.lastTerm LogEntry.term log) :
    (n.installSnapshot request false).Holds log := by
  unfold installSnapshot
  refine ⟨hlength.le, ?_, ?_, hlength, hterm⟩
  · simpa [hlength, Foundation.lastTerm] using hterm
  · simp [hlength]

theorem installSnapshot_durableLogIndex (request : InstallSnapshot) (retainSuffix : Bool)
    (hdurable : n.durableLogIndex = n.lastLogIndex) :
    (n.installSnapshot request retainSuffix).durableLogIndex =
      (n.installSnapshot request retainSuffix).lastLogIndex := by
  unfold installSnapshot
  cases retainSuffix with
  | false => rfl
  | true =>
      simp only [if_true]
      split <;> simp [hdurable]

theorem newNodeFromRecoveredState_trimmed (id : NodeID) (peers : List NodeID)
    {recovered : RecoveredState} (hfirst : ∀ first rest, recovered.log = first :: rest →
      first.index = recovered.snapshotIndex + 1) :
    newNodeFromRecoveredState id peers recovered =
      { id := id
        peers := peers.insertionSort (· ≤ ·)
        term := recovered.hardState.term
        votedFor := recovered.hardState.votedFor
        durableTerm := recovered.hardState.term
        durableVotedFor := recovered.hardState.votedFor
        commitIndex := recovered.commitIndex
        durableCommitIndex := recovered.commitIndex
        lastApplied := recovered.snapshotIndex
        logBaseIndex := recovered.snapshotIndex
        logBaseTerm := recovered.snapshotTerm
        log := recovered.log
        lastLogIndex := (recovered.log.getLast?).elim recovered.snapshotIndex LogEntry.index
        lastLogTerm := (recovered.log.getLast?).elim recovered.snapshotTerm LogEntry.term
        durableLogIndex :=
          (recovered.log.getLast?).elim recovered.snapshotIndex LogEntry.index } := by
  unfold newNodeFromRecoveredState
  split
  · rfl
  next first rest hcons =>
    rw [if_neg]
    rintro ⟨hpos, hone, -⟩
    have := hfirst first rest hcons
    omega

theorem holds_newNodeFromRecoveredState (id : NodeID) (peers : List NodeID)
    {recovered : RecoveredState} (hnumbered : Numbered log)
    (hle : recovered.snapshotIndex ≤ log.length)
    (hlog : recovered.log = log.drop recovered.snapshotIndex)
    (hterm : recovered.snapshotTerm =
      Foundation.termAt LogEntry.term log recovered.snapshotIndex) :
    (newNodeFromRecoveredState id peers recovered).Holds log := by
  rw [newNodeFromRecoveredState_trimmed id peers (hnumbered.first_of_drop hlog)]
  refine ⟨hle, hterm, hlog, ?_, ?_⟩
  all_goals
    simp only [hlog, List.getLast?_drop]
    split
  · simp only [Option.elim_none]
    omega
  next hshort =>
    cases hlast : log.getLast? with
    | none => simp_all
    | some entry => exact hnumbered.index_getLast hlast
  next hshort =>
    have heq : recovered.snapshotIndex = log.length := by omega
    simp only [Option.elim_none, hterm, Foundation.lastTerm, heq]
  next hshort =>
    cases hlast : log.getLast? with
    | none => simp_all
    | some entry => exact (lastTerm_getLast hlast).symm

/-! ## Batches and hints -/

theorem le_batchCount (bytes count : Nat) (entries : List LogEntry) :
    count ≤ batchCount bytes count entries := by
  induction entries generalizing bytes count with
  | nil => exact le_rfl
  | cons entry rest ih =>
      unfold batchCount
      split
      · exact le_rfl
      · exact (Nat.le_succ _).trans (ih _ _)

theorem Holds.entriesBatch_eq (h : n.Holds log) {first last : Nat}
    (hbase : n.logBaseIndex < first) (hle : first ≤ last) (hlast : last ≤ log.length) :
    ∃ count, 0 < count ∧ n.entriesBatch first last = (log.drop (first - 1)).take count := by
  have hrange : n.log.drop (first - n.logBaseIndex - 1) = log.drop (first - 1) := by
    rw [h.log_eq, List.drop_drop]
    congr 1
    omega
  unfold entriesBatch
  rw [if_neg (by rw [h.lastIndex]; omega), if_neg (by omega)]
  simp only [hrange, List.take_take]
  refine ⟨_, ?_, rfl⟩
  obtain ⟨entry, rest, hcons⟩ : ∃ entry rest,
      (log.drop (first - 1)).take (last - first + 1) = entry :: rest := by
    apply List.exists_cons_of_ne_nil
    rw [Ne, List.take_eq_nil_iff, List.drop_eq_nil_iff]
    omega
  rw [hcons, batchCount, if_neg (by omega)]
  have := le_batchCount (0 + entry.batchBytes) (0 + 1) rest
  omega

theorem entriesBatch_nil (n : Node) {first last : Nat} (h : last < first) :
    n.entriesBatch first last = [] := by
  rw [entriesBatch, if_pos (.inr (.inl h))]

theorem conflictFirst_spec (n : Node) {index : Nat} (hpos : 0 < index) :
    0 < n.conflictFirst (n.termAt index) index ∧
      n.conflictFirst (n.termAt index) index ≤ index ∧
      n.termAt (n.conflictFirst (n.termAt index) index) = n.termAt index := by
  generalize hterm : n.termAt index = term
  induction index with
  | zero => omega
  | succ first ih =>
      unfold conflictFirst
      split
      next hsame =>
        obtain ⟨hlower, hupper, heq⟩ := ih (by omega) hsame.2
        exact ⟨hlower, by omega, heq⟩
      · exact ⟨hpos, le_rfl, hterm⟩

theorem lastOfTerm_some {term last index : Nat} (h : n.lastOfTerm term last = some index) :
    0 < index ∧ index ≤ last ∧ n.termAt index = term ∧
      ∀ later, index < later → later ≤ last → n.termAt later ≠ term := by
  induction last with
  | zero => simp [lastOfTerm] at h
  | succ last ih =>
      unfold lastOfTerm at h
      split at h
      next hterm =>
        obtain rfl : last + 1 = index := by simpa using h
        exact ⟨by omega, le_rfl, hterm, fun later _ _ => by omega⟩
      next hterm =>
        obtain ⟨hpos, hle, heq, hlater⟩ := ih h
        refine ⟨hpos, by omega, heq, fun later hlt hbound => ?_⟩
        rcases Nat.lt_or_eq_of_le hbound with hless | rfl
        · exact hlater later hlt (by omega)
        · exact hterm

theorem lastOfTerm_none {term last : Nat} (h : n.lastOfTerm term last = none) :
    ∀ index, 0 < index → index ≤ last → n.termAt index ≠ term := by
  induction last with
  | zero =>
      intro index hpos hle
      omega
  | succ last ih =>
      unfold lastOfTerm at h
      split at h
      · simp at h
      next hterm =>
        intro index hpos hle
        rcases Nat.lt_or_eq_of_le hle with hless | rfl
        · exact ih h index hpos (by omega)
        · exact hterm

/-! ## The scan of a request's entries -/

inductive Scan (n : Node) (want : Nat) (entries : List LogEntry) :
    Option (List LogEntry × Nat) → Prop where
  | refused (offset : Nat) (entry : LogEntry) (found : entries[offset]? = some entry)
      (differs : n.termAt (want + offset) ≠ entry.term)
      (inside : want + offset ≤ n.lastLogIndex)
      (committed : want + offset ≤ n.commitIndex)
      (agree : ∀ k e, k < offset → entries[k]? = some e → n.termAt (want + k) = e.term) :
      Scan n want entries none
  | held (agree : ∀ k e, entries[k]? = some e →
        want + k ≤ n.lastLogIndex ∧ n.termAt (want + k) = e.term) :
      Scan n want entries (some ([], 0))
  | conflict (offset : Nat) (entry : LogEntry) (found : entries[offset]? = some entry)
      (differs : n.termAt (want + offset) ≠ entry.term)
      (inside : want + offset ≤ n.lastLogIndex)
      (uncommitted : n.commitIndex < want + offset)
      (agree : ∀ k e, k < offset → entries[k]? = some e → n.termAt (want + k) = e.term) :
      Scan n want entries (some (entries.drop offset, want + offset))
  | beyond (offset : Nat) (within : offset < entries.length)
      (next : want + offset = n.lastLogIndex + 1)
      (agree : ∀ k e, k < offset → entries[k]? = some e → n.termAt (want + k) = e.term) :
      Scan n want entries (some (entries.drop offset, 0))

theorem entriesFrom_scan (n : Node) (want : Nat) (entries : List LogEntry)
    (hindex : ∀ k e, entries[k]? = some e → e.index = want + k)
    (hwant : want ≤ n.lastLogIndex + 1) : n.Scan want entries (n.entriesFrom want entries) := by
  induction entries generalizing want with
  | nil => exact .held (by simp)
  | cons entry rest ih =>
      have hentry : entry.index = want := hindex 0 entry rfl
      have hrest : ∀ k e, rest[k]? = some e → e.index = want + 1 + k := by
        intro k e he
        have := hindex (k + 1) e he
        omega
      unfold entriesFrom
      rw [if_neg (not_not.mpr hentry), hentry]
      split
      next hinside =>
        split
        next hdiffers =>
          split
          next hcommitted =>
            exact .refused 0 entry rfl hdiffers hinside hcommitted (by omega)
          next hcommitted =>
            exact .conflict 0 entry rfl hdiffers hinside (by omega) (by omega)
        next hagrees =>
          rw [not_not] at hagrees
          have hshift : ∀ offset, want + 1 + offset = want + (offset + 1) := by omega
          have hcons : ∀ (offset : Nat), (∀ k e, k < offset → rest[k]? = some e →
              n.termAt (want + 1 + k) = e.term) → ∀ k e, k < offset + 1 →
              (entry :: rest)[k]? = some e → n.termAt (want + k) = e.term := by
            intro offset hagree k e hk he
            cases k with
            | zero =>
                obtain rfl : entry = e := by simpa using he
                exact hagrees
            | succ k =>
                rw [← hshift]
                exact hagree k e (by omega) he
          generalize hresult : n.entriesFrom (want + 1) rest = result
          have hscan := ih (want + 1) hrest (by omega)
          rw [hresult] at hscan
          cases hscan with
          | refused offset e found differs inside committed agree =>
              exact .refused (offset + 1) e found (hshift offset ▸ differs)
                (hshift offset ▸ inside) (hshift offset ▸ committed) (hcons offset agree)
          | held agree =>
              refine .held fun k e he => ?_
              cases k with
              | zero =>
                  obtain rfl : entry = e := by simpa using he
                  exact ⟨hinside, hagrees⟩
              | succ k =>
                  rw [← hshift]
                  exact agree k e he
          | conflict offset e found differs inside uncommitted agree =>
              have hscan : n.Scan want (entry :: rest)
                  (some (rest.drop offset, want + (offset + 1))) :=
                .conflict (offset + 1) e found (hshift offset ▸ differs)
                  (hshift offset ▸ inside) (hshift offset ▸ uncommitted) (hcons offset agree)
              rwa [← hshift] at hscan
          | beyond offset within next agree =>
              exact .beyond (offset + 1) (by simpa using within) (by omega) (hcons offset agree)
      next houtside =>
        rw [if_neg (by omega)]
        exact .beyond 0 (by simp) (by omega) (by omega)

end Node

end QuorumKV.Raft
