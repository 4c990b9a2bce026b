import QuorumKV.Raft.Ledger

/-!
# Merging a Leader's entries into a log

What `handleAppendEntries` does to the log once the previous position matched, for
a request whose entries count on from that position.  The scan stops at the first
entry that differs or is missing; what lies before it stays, and the request's own
entries take over from there.  Requests cut from one Leader log can then be merged
in any order: each of them leaves the log alone or makes it a prefix of the Leader's.
-/

namespace QuorumKV.Raft

open Foundation

/-! ## Contiguous logs -/

structure Node.Contiguous (n : Node) : Prop where
  numbered : ∀ offset entry, n.log[offset]? = some entry →
    entry.index = n.logBaseIndex + offset + 1
  lastIndex : n.lastLogIndex = n.logBaseIndex + n.log.length
  lastTerm : n.lastLogTerm = n.termAt n.lastLogIndex
  start : n.logBaseIndex = 0 → n.logBaseTerm = 0

def Node.entryAt (n : Node) (index : Nat) : Option LogEntry :=
  if index ≤ n.logBaseIndex then none else n.log[index - n.logBaseIndex - 1]?

def logOf (terms : List Nat) : List LogEntry :=
  terms.mapIdx fun offset term => { index := offset + 1, term := term, type := .noOp }

theorem logOf_length (terms : List Nat) : (logOf terms).length = terms.length := by
  simp [logOf]

theorem logOf_numbered (terms : List Nat) : Numbered (logOf terms) := by
  intro offset entry hentry
  simp only [logOf, List.getElem?_mapIdx, Option.map_eq_some_iff] at hentry
  obtain ⟨term, -, rfl⟩ := hentry
  rfl

theorem termAt_logOf (terms : List Nat) (position : Nat) :
    Foundation.termAt LogEntry.term (logOf terms) (position + 1) = (terms[position]?).getD 0 := by
  simp only [Foundation.termAt, logOf, List.getElem?_mapIdx]
  cases terms[position]? <;> rfl

namespace Node

variable {n m : Node} {log : List LogEntry}

theorem Contiguous.holds (h : n.Contiguous) : ∃ log, Numbered log ∧ n.Holds log := by
  -- Nothing is known of what the base stands for but its last term.
  obtain ⟨front, hfront, hlength, hterm⟩ : ∃ front, Numbered front ∧
      front.length = n.logBaseIndex ∧
      n.logBaseTerm = Foundation.termAt LogEntry.term front n.logBaseIndex := by
    refine ⟨logOf (List.replicate n.logBaseIndex n.logBaseTerm), logOf_numbered _, ?_, ?_⟩
    · rw [logOf_length, List.length_replicate]
    · cases hbase : n.logBaseIndex with
      | zero => rw [h.start hbase, Foundation.termAt_zero]
      | succ last => simp [termAt_logOf]
  have hdrop : n.log = (front ++ n.log).drop n.logBaseIndex := by
    rw [List.drop_append_of_le_length hlength.ge, List.drop_eq_nil_of_le hlength.le,
      List.nil_append]
  have hbaseTerm : n.logBaseTerm =
      Foundation.termAt LogEntry.term (front ++ n.log) n.logBaseIndex := by
    rw [termAt_front (List.prefix_append _ _) hlength.ge]
    exact hterm
  generalize hlog : front ++ n.log = log at hdrop hbaseTerm
  have htotal : log.length = n.logBaseIndex + n.log.length := by
    rw [← hlog, List.length_append, hlength]
  have hparts : ({ n with lastLogTerm := Foundation.lastTerm LogEntry.term log } : Node).Holds log :=
    ⟨by rw [htotal]; exact Nat.le_add_right _ _, hbaseTerm, hdrop, h.lastIndex.trans htotal.symm,
      rfl⟩
  refine ⟨log, ?_, hparts.base_le, hbaseTerm, hdrop, hparts.lastIndex, ?_⟩
  · rw [← hlog]
    refine hfront.append fun offset entry hentry => ?_
    rw [hlength]
    exact h.numbered offset entry hentry
  · have hbound : n.logBaseIndex ≤ n.lastLogIndex := by
      rw [h.lastIndex]
      exact Nat.le_add_right _ _
    rw [h.lastTerm, Foundation.lastTerm, ← hparts.lastIndex]
    exact hparts.termAt_eq hbound

theorem Holds.contiguous (h : n.Holds log) (hnumbered : Numbered log) : n.Contiguous := by
  have hlength : n.log.length = log.length - n.logBaseIndex := by rw [h.log_eq, List.length_drop]
  have hbase := h.base_le
  refine ⟨?_, ?_, ?_, ?_⟩
  · intro offset entry hentry
    rw [h.log_eq, List.getElem?_drop] at hentry
    exact hnumbered _ entry hentry
  · rw [h.lastIndex, hlength]
    omega
  · rw [h.lastTerm, h.termAt_eq (by rw [h.lastIndex]; exact hbase), h.lastIndex]
    rfl
  · intro hzero
    rw [h.baseTerm, hzero, Foundation.termAt_zero]

theorem Holds.entryAt_eq (h : n.Holds log) {index : Nat} (hlt : n.logBaseIndex < index) :
    n.entryAt index = log[index - 1]? := by
  rw [entryAt, if_neg (Nat.not_le.mpr hlt), h.entry_eq hlt]

/-! ## One request -/

def Consecutive (request : AppendEntries) : Prop :=
  ∀ offset entry, request.entries[offset]? = some entry →
    entry.index = request.prevLogIndex + 1 + offset

def splice (log : List LogEntry) (request : AppendEntries) (offset : Nat) : List LogEntry :=
  log.take (request.prevLogIndex + offset) ++ request.entries.drop offset

def Rejects (n : Node) (request : AppendEntries) : Prop :=
  ∃ response, Action.sendAppendEntriesResponse request.sender response ∈
    (n.handleAppendEntries request).2 ∧ response.success = false

/-- What a request of the current term never changes, and what it only raises. -/
structure Sustains (n m : Node) : Prop where
  term : m.term = n.term
  base : m.logBaseIndex = n.logBaseIndex
  baseTerm : m.logBaseTerm = n.logBaseTerm
  commit : n.commitIndex ≤ m.commitIndex
  commit_le : m.commitIndex ≤ m.lastLogIndex

inductive Merges (n : Node) (log : List LogEntry) (request : AppendEntries) (m : Node) : Prop where
  | refused (rejects : n.Rejects request) (ledger : m.ledger = n.ledger)
  | held (accepts : ¬ n.Rejects request)
      (agree : ∀ offset entry, request.entries[offset]? = some entry →
        request.prevLogIndex + 1 + offset ≤ log.length ∧
        n.termAt (request.prevLogIndex + 1 + offset) = entry.term)
      (holds : m.Holds log)
  | spliced (accepts : ¬ n.Rejects request) (offset : Nat)
      (within : offset < request.entries.length)
      (reaches : request.prevLogIndex + offset ≤ log.length)
      (uncommitted : n.commitIndex ≤ request.prevLogIndex + offset)
      (agree : ∀ before entry, before < offset → request.entries[before]? = some entry →
        n.termAt (request.prevLogIndex + 1 + before) = entry.term)
      (new : request.prevLogIndex + offset = log.length ∨
        ∀ entry, request.entries[offset]? = some entry →
          n.termAt (request.prevLogIndex + 1 + offset) ≠ entry.term)
      (holds : m.Holds (splice log request offset))
      (numbered : Numbered (splice log request offset))

theorem termAt_of_ledger (h : m.ledger = n.ledger) (index : Nat) :
    m.termAt index = n.termAt index := by
  simp only [ledger, Ledger.mk.injEq] at h
  obtain ⟨-, -, hbase, hbaseTerm, hlog, hlast, -⟩ := h
  simp only [termAt, hbase, hbaseTerm, hlog, hlast]

theorem Holds.persistLog (h : n.Holds log) (entries : List LogEntry)
    (pending : PendingLogPersistence) : (n.persistLog entries pending).1.Holds log :=
  h.of_parts rfl

theorem handleAppendEntries_current {request : AppendEntries} (h : request.term = n.term) :
    n.handleAppendEntries request =
      (((n.recognizeLeader n.term request.sender).answerEntries request).1,
        .resetElectionTimer ::
          ((n.recognizeLeader n.term request.sender).answerEntries request).2) := by
  simp [handleAppendEntries, h, afterTermChange]

section Advance

variable {leaderCommit : Nat} {after : List Action}

theorem Holds.advanceFollowerCommit (h : n.Holds log) :
    (n.advanceFollowerCommit leaderCommit after).1.Holds log := by
  unfold Node.advanceFollowerCommit
  dsimp only
  split
  · exact h.of_parts rfl
  · exact h.of_ledger (ledger_applyThrough _)

theorem sustains_advanceFollowerCommit (h : n.commitIndex ≤ n.lastLogIndex) :
    n.Sustains (n.advanceFollowerCommit leaderCommit after).1 := by
  unfold Node.advanceFollowerCommit
  dsimp only
  split
  next hraised => exact ⟨rfl, rfl, rfl, hraised.le, Nat.min_le_right _ _⟩
  · have hledger := ledger_applyThrough (n := n) n.durableCommitIndex
    generalize (n.applyThrough n.durableCommitIndex).1 = applied at hledger
    simp only [ledger, Ledger.mk.injEq] at hledger
    obtain ⟨hterm, -, hbase, hbaseTerm, -, hlast, -, -, hcommit, -⟩ := hledger
    exact ⟨hterm, hbase, hbaseTerm, hcommit.ge, by rw [hcommit, hlast]; exact h⟩

theorem advanceFollowerCommit_response {dest : NodeID} {response : AppendEntriesResponse}
    (h : Action.sendAppendEntriesResponse dest response ∈
      (n.advanceFollowerCommit leaderCommit after).2) :
    Action.sendAppendEntriesResponse dest response ∈ after := by
  unfold Node.advanceFollowerCommit at h
  dsimp only at h
  split at h
  · simp [persistCommit] at h
  · rcases List.mem_append.mp h with h | h
    · exact nomatch applyThrough_applies _ _ _ h
    · exact h

end Advance

/-! ### The three ways a request can go -/

section Request

variable {request : AppendEntries}

theorem matchesAt_of_ledger (h : m.ledger = n.ledger) (index term : Nat) :
    m.matchesAt index term = n.matchesAt index term := by
  have hlast : m.lastLogIndex = n.lastLogIndex := congrArg Ledger.lastLogIndex h
  simp only [matchesAt, termAt_of_ledger h, hlast]

theorem entriesFrom_of_ledger (h : m.ledger = n.ledger) (want : Nat) (entries : List LogEntry) :
    m.entriesFrom want entries = n.entriesFrom want entries := by
  have hlast : m.lastLogIndex = n.lastLogIndex := congrArg Ledger.lastLogIndex h
  have hcommit : m.commitIndex = n.commitIndex := congrArg Ledger.commitIndex h
  induction entries generalizing want with
  | nil => rfl
  | cons entry rest ih => simp only [entriesFrom, ih, termAt_of_ledger h, hlast, hcommit]

theorem acceptEntries_response {entries : List LogEntry} {truncateFrom : Nat} {dest : NodeID}
    {response : AppendEntriesResponse}
    (h : Action.sendAppendEntriesResponse dest response ∈
      (n.acceptEntries request entries truncateFrom).2) : response.success = true := by
  unfold acceptEntries at h
  split at h
  · simp [persistLog] at h
  split at h
  · simp at h
  · have hparked := advanceFollowerCommit_response h
    simp only [appendEntriesResponse, List.mem_singleton,
      Action.sendAppendEntriesResponse.injEq] at hparked
    rw [hparked.2]

theorem handleAppendEntries_cases (hterm : request.term = n.term) :
    (n.Rejects request ∧ (n.handleAppendEntries request).1.ledger = n.ledger ∧
        (n.matchesAt request.prevLogIndex request.prevLogTerm = false ∨
          n.entriesToAppend request.prevLogIndex request.entries = none)) ∨
      ∃ (k : Node) (entries : List LogEntry) (truncateFrom : Nat),
        k.ledger = n.ledger ∧ ¬ n.Rejects request ∧
        (n.handleAppendEntries request).1 = (k.acceptEntries request entries truncateFrom).1 ∧
        n.matchesAt request.prevLogIndex request.prevLogTerm = true ∧
        n.entriesToAppend request.prevLogIndex request.entries = some (entries, truncateFrom) := by
  have hledger := ledger_recognizeLeader (n := n) request.sender
  have hhandled := handleAppendEntries_current hterm
  generalize n.recognizeLeader n.term request.sender = k at hledger hhandled
  have hrejects : n.Rejects request ↔ ∃ response,
      Action.sendAppendEntriesResponse request.sender response ∈ (k.answerEntries request).2 ∧
        response.success = false := by
    simp [Rejects, hhandled]
  rw [hhandled]
  have hmatches := matchesAt_of_ledger hledger request.prevLogIndex request.prevLogTerm
  have hentries := entriesFrom_of_ledger hledger (request.prevLogIndex + 1) request.entries
  unfold answerEntries entriesToAppend at hrejects ⊢
  rw [hmatches, hentries] at hrejects ⊢
  split at hrejects
  next hdiffers =>
    refine .inl ⟨hrejects.mpr ⟨_, List.mem_singleton.mpr rfl, rfl⟩, ?_, .inl hdiffers⟩
    rw [if_pos hdiffers]
    exact hledger
  next hsame =>
    rw [Bool.not_eq_false] at hsame
    rw [if_neg (by simp [hsame])]
    split at hrejects
    next hnone =>
      exact .inl ⟨hrejects.mpr ⟨_, List.mem_singleton.mpr rfl, rfl⟩, hledger, .inr hnone⟩
    next entries truncateFrom hsome =>
      refine .inr ⟨k, entries, truncateFrom, hledger, ?_, rfl, hsame, hsome⟩
      rw [hrejects]
      rintro ⟨response, hmem, hfailed⟩
      exact absurd (acceptEntries_response hmem) (by simp [hfailed])

theorem sustains_of_ledger (h : m.ledger = n.ledger) (hcommit : n.commitIndex ≤ n.lastLogIndex) :
    n.Sustains m := by
  simp only [ledger, Ledger.mk.injEq] at h
  obtain ⟨hterm, -, hbase, hbaseTerm, -, hlast, -, -, hcommitIndex, -⟩ := h
  exact ⟨hterm, hbase, hbaseTerm, hcommitIndex.ge, by rw [hcommitIndex, hlast]; exact hcommit⟩

theorem Sustains.of_ledger {k : Node} (h : k.Sustains m) (hledger : k.ledger = n.ledger) :
    n.Sustains m := by
  simp only [ledger, Ledger.mk.injEq] at hledger
  obtain ⟨hterm, -, hbase, hbaseTerm, -, -, -, -, hcommit, -⟩ := hledger
  exact ⟨h.term.trans hterm, h.base.trans hbase, h.baseTerm.trans hbaseTerm,
    hcommit ▸ h.commit, h.commit_le⟩

theorem acceptEntries_held (request : AppendEntries) (h : n.Holds log)
    (hcommit : n.commitIndex ≤ log.length) :
    n.Sustains (n.acceptEntries request [] 0).1 ∧ (n.acceptEntries request [] 0).1.Holds log := by
  have hlast : n.commitIndex ≤ n.lastLogIndex := h.lastIndex ▸ hcommit
  unfold acceptEntries
  rw [if_neg (by simp)]
  split
  · exact ⟨sustains_of_ledger rfl hlast, h⟩
  · exact ⟨sustains_advanceFollowerCommit hlast, h.advanceFollowerCommit⟩

theorem splice_length {offset : Nat} (hreaches : request.prevLogIndex + offset ≤ log.length)
    (hwithin : offset ≤ request.entries.length) :
    (splice log request offset).length = request.prevLogIndex + request.entries.length := by
  rw [splice, List.length_append, List.length_take, List.length_drop]
  omega

theorem splice_numbered {offset : Nat} (hnumbered : Numbered log)
    (hconsecutive : Consecutive request)
    (hreaches : request.prevLogIndex + offset ≤ log.length) :
    Numbered (splice log request offset) := by
  refine (hnumbered.front (List.take_prefix _ _)).append fun later entry hentry => ?_
  rw [List.getElem?_drop] at hentry
  have hindex := hconsecutive _ entry hentry
  rw [List.length_take, Nat.min_eq_left hreaches]
  omega

theorem acceptEntries_spliced (h : n.Holds log) (hnumbered : Numbered log)
    (hconsecutive : Consecutive request) {offset truncateFrom : Nat}
    (hwithin : offset < request.entries.length)
    (hreaches : request.prevLogIndex + offset ≤ log.length)
    (hbase : n.logBaseIndex ≤ n.commitIndex)
    (huncommitted : n.commitIndex ≤ request.prevLogIndex + offset)
    (htruncate : truncateFrom = request.prevLogIndex + 1 + offset ∨
      (truncateFrom = 0 ∧ request.prevLogIndex + offset = log.length)) :
    n.Sustains (n.acceptEntries request (request.entries.drop offset) truncateFrom).1 ∧
      (n.acceptEntries request (request.entries.drop offset) truncateFrom).1.Holds
        (splice log request offset) := by
  have hne : request.entries.drop offset ≠ [] := by
    rw [Ne, List.drop_eq_nil_iff, Nat.not_le]
    exact hwithin
  have hspliced := splice_numbered hnumbered hconsecutive hreaches
  have hlength := splice_length hreaches hwithin.le
  -- The core once the conflicting suffix is gone.
  obtain ⟨cut, hcut, hholds, hkept⟩ : ∃ cut : Node,
      (if truncateFrom ≠ 0 then n.truncateLog truncateFrom else n) = cut ∧
      cut.Holds (log.take (request.prevLogIndex + offset)) ∧
      (cut.term = n.term ∧ cut.logBaseIndex = n.logBaseIndex ∧ cut.logBaseTerm = n.logBaseTerm ∧
        cut.commitIndex = n.commitIndex) := by
    rcases htruncate with rfl | ⟨rfl, hlast⟩
    · refine ⟨_, if_pos (by omega), ?_, rfl, rfl, rfl, rfl⟩
      have hfirstBase : n.logBaseIndex < request.prevLogIndex + 1 + offset := by omega
      have htruncated := h.truncateLog hfirstBase (by omega)
      have hfirst : request.prevLogIndex + 1 + offset - 1 = request.prevLogIndex + offset := by
        omega
      rwa [hfirst] at htruncated
    · refine ⟨n, if_neg (by simp), ?_, rfl, rfl, rfl, rfl⟩
      rw [hlast, List.take_length]
      exact h
  have happended : (cut.appendEntries (request.entries.drop offset)).Holds
      (splice log request offset) := hholds.appendEntries hne hspliced
  obtain ⟨hterm, hcutBase, hcutTerm, hcutCommit⟩ := hkept
  rw [acceptEntries, if_pos hne, hcut]
  refine ⟨⟨hterm, hcutBase, hcutTerm, hcutCommit.ge, ?_⟩, happended.persistLog _ _⟩
  have hlast := happended.lastIndex
  rw [hlength] at hlast
  calc cut.commitIndex = n.commitIndex := hcutCommit
    _ ≤ request.prevLogIndex + request.entries.length := by omega
    _ = _ := hlast.symm

theorem Holds.handleAppendEntries (h : n.Holds log) (hnumbered : Numbered log)
    (hbase : n.logBaseIndex ≤ n.commitIndex) (hcommit : n.commitIndex ≤ log.length)
    (hterm : request.term = n.term) (hconsecutive : Consecutive request)
    (hmatches : n.matchesAt request.prevLogIndex request.prevLogTerm = true) :
    n.Sustains (n.handleAppendEntries request).1 ∧
      n.Merges log request (n.handleAppendEntries request).1 := by
  have hprev : request.prevLogIndex ≤ log.length := by
    rcases h.matchesAt_iff.mp hmatches with ⟨hzero, -⟩ | ⟨hle, -⟩ <;> omega
  rcases handleAppendEntries_cases hterm with
    ⟨hrejects, hledger, -⟩ | ⟨k, entries, truncateFrom, hledger, haccepts, hhandled, -, hfound⟩
  · exact ⟨sustains_of_ledger hledger (h.lastIndex ▸ hcommit), .refused hrejects hledger⟩
  have hk := h.of_ledger hledger
  have hkcommit : k.commitIndex = n.commitIndex := congrArg Ledger.commitIndex hledger
  have hkbase : k.logBaseIndex = n.logBaseIndex := congrArg Ledger.logBaseIndex hledger
  have hscan := n.entriesFrom_scan (request.prevLogIndex + 1) request.entries hconsecutive
    (by rw [h.lastIndex]; omega)
  rw [entriesToAppend] at hfound
  rw [hfound] at hscan
  rw [hhandled]
  cases hscan with
  | held agree =>
      obtain ⟨hsustains, hholds⟩ := acceptEntries_held request hk (hkcommit ▸ hcommit)
      exact ⟨hsustains.of_ledger hledger, .held haccepts (h.lastIndex ▸ agree) hholds⟩
  | conflict offset entry found differs inside uncommitted agree =>
      rw [h.lastIndex] at inside
      have hwithin := (List.getElem?_eq_some_iff.mp found).1
      obtain ⟨hsustains, hholds⟩ := acceptEntries_spliced hk hnumbered hconsecutive hwithin
        (by omega) (by omega) (by omega) (.inl rfl)
      refine ⟨hsustains.of_ledger hledger, .spliced haccepts offset hwithin (by omega) (by omega)
        agree (.inr ?_) hholds (splice_numbered hnumbered hconsecutive (by omega))⟩
      intro other hother
      obtain rfl : entry = other := Option.some.inj (found.symm.trans hother)
      exact differs
  | beyond offset within next agree =>
      rw [h.lastIndex] at next
      obtain ⟨hsustains, hholds⟩ := acceptEntries_spliced hk hnumbered hconsecutive within
        (by omega) (by omega) (by omega) (.inr ⟨rfl, by omega⟩)
      exact ⟨hsustains.of_ledger hledger, .spliced haccepts offset within (by omega) (by omega)
        agree (.inl (by omega)) hholds (splice_numbered hnumbered hconsecutive (by omega))⟩

end Request

/-! ### What the merged log holds -/

def Differs (n : Node) (request : AppendEntries) (index : Nat) : Prop :=
  index ≤ n.lastLogIndex ∧ ∃ offset entry, request.entries[offset]? = some entry ∧
    index = request.prevLogIndex + 1 + offset ∧ n.termAt index ≠ entry.term

structure Merged (n : Node) (request : AppendEntries) (m : Node) : Prop where
  contiguous : m.Contiguous
  base : m.logBaseIndex = n.logBaseIndex
  agrees : ∀ offset entry, request.entries[offset]? = some entry →
    n.logBaseIndex < request.prevLogIndex + 1 + offset →
    ∃ found, m.entryAt (request.prevLogIndex + 1 + offset) = some found ∧
      found.term = entry.term
  takes : ∀ offset entry, request.entries[offset]? = some entry →
    n.lastLogIndex < request.prevLogIndex + 1 + offset ∨
      (∃ index ≤ request.prevLogIndex + 1 + offset, n.Differs request index) →
    m.entryAt (request.prevLogIndex + 1 + offset) = some entry
  keeps : ∀ index ≤ n.lastLogIndex, (∀ earlier ≤ index, ¬ n.Differs request earlier) →
    m.entryAt index = n.entryAt index
  extends_log : (∀ index, ¬ n.Differs request index) → n.log <+: m.log
  committed : ∀ index ≤ n.commitIndex, m.entryAt index = n.entryAt index

section Merged

variable {request : AppendEntries} {offset : Nat}

theorem splice_front (hreaches : request.prevLogIndex + offset ≤ log.length) {index : Nat}
    (hindex : index < request.prevLogIndex + offset) :
    (splice log request offset)[index]? = log[index]? := by
  rw [splice, List.getElem?_append_left (by rw [List.length_take]; omega),
    List.getElem?_take_of_lt hindex]

theorem splice_back (hreaches : request.prevLogIndex + offset ≤ log.length) {later : Nat}
    (hlater : offset ≤ later) :
    (splice log request offset)[request.prevLogIndex + later]? = request.entries[later]? := by
  rw [splice, List.getElem?_append_right (by rw [List.length_take]; omega), List.getElem?_drop,
    List.length_take, Nat.min_eq_left hreaches]
  congr 1
  omega

theorem Holds.entryAt_congr {other : List LogEntry} (h : n.Holds log) (h' : m.Holds other)
    (hbase : m.logBaseIndex = n.logBaseIndex) {index : Nat}
    (hsame : other[index - 1]? = log[index - 1]?) : m.entryAt index = n.entryAt index := by
  by_cases hle : index ≤ n.logBaseIndex
  · simp only [entryAt, hbase, if_pos hle]
  · rw [h.entryAt_eq (Nat.not_le.mp hle), h'.entryAt_eq (hbase.symm ▸ Nat.not_le.mp hle), hsame]

theorem Holds.exists_entry (h : n.Holds log) {index : Nat} (hbase : n.logBaseIndex < index)
    (hle : index ≤ log.length) :
    ∃ found, n.entryAt index = some found ∧ found.term = n.termAt index := by
  obtain ⟨offset, rfl⟩ := Nat.exists_eq_succ_of_ne_zero (by omega : index ≠ 0)
  refine ⟨log[offset], ?_, ?_⟩
  · rw [h.entryAt_eq hbase, Nat.succ_eq_add_one, Nat.add_sub_cancel,
      List.getElem?_eq_getElem (by omega)]
  · rw [h.termAt_eq hbase.le, Nat.succ_eq_add_one, termAt_getElem (by omega)]

theorem Merges.merged (hmerges : n.Merges log request m) (haccepts : ¬ n.Rejects request)
    (h : n.Holds log) (hnumbered : Numbered log) (hbase : n.logBaseIndex ≤ n.commitIndex)
    (hsustains : n.Sustains m) : n.Merged request m := by
  cases hmerges with
  | refused rejects ledger => exact absurd rejects haccepts
  | held accepts agree holds =>
      have hsame : ∀ index, ¬ n.Differs request index := by
        rintro index ⟨-, offset, entry, hentry, rfl, hdiffers⟩
        exact hdiffers (agree offset entry hentry).2
      refine ⟨holds.contiguous hnumbered, hsustains.base, ?_, ?_, ?_, ?_, ?_⟩
      · intro offset entry hentry hbase
        obtain ⟨hle, hterm⟩ := agree offset entry hentry
        obtain ⟨found, hfound, hsameTerm⟩ := h.exists_entry hbase hle
        refine ⟨found, ?_, hsameTerm.trans hterm⟩
        rw [← hfound]
        exact h.entryAt_congr holds hsustains.base rfl
      · intro offset entry hentry hnew
        have hle := (agree offset entry hentry).1
        rcases hnew with hmissing | ⟨index, -, hdiffers⟩
        · rw [h.lastIndex] at hmissing
          omega
        · exact absurd hdiffers (hsame index)
      · intro index _ _
        exact h.entryAt_congr holds hsustains.base rfl
      · intro _
        rw [h.log_eq, holds.log_eq, hsustains.base]
      · intro index _
        exact h.entryAt_congr holds hsustains.base rfl
  | spliced accepts offset within reaches uncommitted agree new holds numbered =>
      -- Positions up to the splice keep their entries.
      have hfront : ∀ index ≤ request.prevLogIndex + offset, m.entryAt index = n.entryAt index := by
        intro index hindex
        by_cases hzero : index = 0
        · simp [entryAt, hzero]
        · exact h.entryAt_congr holds hsustains.base (splice_front reaches (by omega))
      have hback : ∀ later entry, offset ≤ later → request.entries[later]? = some entry →
          m.entryAt (request.prevLogIndex + 1 + later) = some entry := by
        intro later entry hlater hentry
        have hposition : request.prevLogIndex + 1 + later - 1 = request.prevLogIndex + later := by
          omega
        rw [holds.entryAt_eq (by rw [hsustains.base]; omega), hposition,
          splice_back reaches hlater, hentry]
      -- Where the log goes on behind the splice, its next entry differs.
      have hnext : request.prevLogIndex + offset < log.length →
          n.Differs request (request.prevLogIndex + 1 + offset) := by
        intro hinside
        refine ⟨by rw [h.lastIndex]; omega, offset, _, List.getElem?_eq_getElem within, rfl, ?_⟩
        exact (new.resolve_left hinside.ne) _ (List.getElem?_eq_getElem within)
      have hearliest : ∀ index, n.Differs request index → request.prevLogIndex + offset < index := by
        rintro index ⟨-, before, entry, hentry, rfl, hdiffers⟩
        by_contra hearly
        exact hdiffers (agree before entry (by omega) hentry)
      refine ⟨holds.contiguous numbered, hsustains.base, ?_, ?_, ?_, ?_, ?_⟩
      · intro later entry hentry hlater
        rcases Nat.lt_or_ge later offset with hbefore | hafter
        · obtain ⟨found, hfound, hterm⟩ := h.exists_entry hlater (by omega)
          refine ⟨found, ?_, hterm.trans (agree later entry hbefore hentry)⟩
          rw [hfront _ (by omega), hfound]
        · exact ⟨entry, hback later entry hafter hentry, rfl⟩
      · intro later entry hentry hnew
        refine hback later entry ?_ hentry
        rcases hnew with hmissing | ⟨index, hindex, hdiffers⟩
        · rw [h.lastIndex] at hmissing
          omega
        · have := hearliest index hdiffers
          omega
      · intro index hindex hsame
        refine hfront index ?_
        by_contra hbehind
        rw [h.lastIndex] at hindex
        exact hsame _ (by omega) (hnext (by omega))
      · intro hsame
        have hlast : request.prevLogIndex + offset = log.length := by
          by_contra hinside
          exact hsame _ (hnext (by omega))
        rw [h.log_eq, holds.log_eq, hsustains.base, splice, hlast, List.take_length,
          List.drop_append_of_le_length h.base_le]
        exact List.prefix_append _ _
      · intro index hindex
        exact hfront index (by omega)

end Merged

/-! ## Requests cut from one Leader log -/

/-- The request carries entries of the Leader's log behind a position of it. -/
structure CutFrom (leaderLog : List LogEntry) (term : Nat) (request : AppendEntries) : Prop where
  term : request.term = term
  prev_le : request.prevLogIndex ≤ leaderLog.length
  prevTerm : request.prevLogTerm =
    Foundation.termAt LogEntry.term leaderLog request.prevLogIndex
  entries : request.entries <+: leaderLog.drop request.prevLogIndex

def deliver (n : Node) : List AppendEntries → Node
  | [] => n
  | request :: requests => (n.handleAppendEntries request).1.deliver requests

structure Tracks (n : Node) (log leaderLog : List LogEntry) : Prop where
  holds : n.Holds log
  numbered : Numbered log
  base_le : n.logBaseIndex ≤ n.commitIndex
  commit_le : n.commitIndex ≤ log.length
  matching : Matching LogEntry.term log leaderLog

structure Retains (leaderLog : List LogEntry) (n m : Node) (log later : List LogEntry) : Prop where
  term : m.term = n.term
  base : m.logBaseIndex = n.logBaseIndex
  baseTerm : m.logBaseTerm = n.logBaseTerm
  keeps : ∀ index ≤ log.length, index ≤ leaderLog.length →
    Foundation.termAt LogEntry.term log index = Foundation.termAt LogEntry.term leaderLog index →
    index ≤ later.length ∧ later.take index = log.take index

section Delivery

variable {leaderLog later : List LogEntry} {request : AppendEntries} {term : Nat}

theorem CutFrom.entry (h : CutFrom leaderLog term request) {offset : Nat} {entry : LogEntry}
    (hentry : request.entries[offset]? = some entry) :
    leaderLog[request.prevLogIndex + offset]? = some entry := by
  obtain ⟨rest, hrest⟩ := h.entries
  rw [← List.getElem?_drop, ← hrest,
    List.getElem?_append_left (List.getElem?_eq_some_iff.mp hentry).1, hentry]

theorem CutFrom.entry_term (h : CutFrom leaderLog term request) {offset : Nat} {entry : LogEntry}
    (hentry : request.entries[offset]? = some entry) :
    request.prevLogIndex + 1 + offset ≤ leaderLog.length ∧
      Foundation.termAt LogEntry.term leaderLog (request.prevLogIndex + 1 + offset) =
        entry.term := by
  have hfound := h.entry hentry
  have hinside := (List.getElem?_eq_some_iff.mp hfound).1
  have hposition : request.prevLogIndex + 1 + offset = request.prevLogIndex + offset + 1 := by omega
  rw [hposition]
  exact ⟨hinside, by rw [Foundation.termAt, hfound]; rfl⟩

theorem CutFrom.consecutive (h : CutFrom leaderLog term request) (hnumbered : Numbered leaderLog) :
    Consecutive request := by
  intro offset entry hentry
  have hindex := hnumbered _ entry (h.entry hentry)
  omega

theorem Retains.refl (leaderLog : List LogEntry) (n : Node) (log : List LogEntry) :
    Retains leaderLog n n log log :=
  ⟨rfl, rfl, rfl, fun _ hle _ _ => ⟨hle, rfl⟩⟩

theorem Retains.trans {k : Node} {latest : List LogEntry} (h : Retains leaderLog n m log later)
    (h' : Retains leaderLog m k later latest) : Retains leaderLog n k log latest := by
  refine ⟨h'.term.trans h.term, h'.base.trans h.base, h'.baseTerm.trans h.baseTerm, ?_⟩
  intro index hle hleader hterm
  obtain ⟨hlater, hsame⟩ := h.keeps index hle hleader hterm
  have hlaterTerm : Foundation.termAt LogEntry.term later index =
      Foundation.termAt LogEntry.term leaderLog index := by
    rw [← hterm, ← termAt_take le_rfl, hsame, termAt_take le_rfl]
  obtain ⟨hlatest, hagain⟩ := h'.keeps index hlater hleader hlaterTerm
  exact ⟨hlatest, hagain.trans hsame⟩

/-- The position before a splice is one that matches, so the log becomes a Leader's prefix. -/
theorem Tracks.splice_eq (h : n.Tracks log leaderLog) (hcut : CutFrom leaderLog term request)
    (hmatches : n.matchesAt request.prevLogIndex request.prevLogTerm = true) {offset : Nat}
    (hwithin : offset < request.entries.length)
    (hreaches : request.prevLogIndex + offset ≤ log.length)
    (huncommitted : n.commitIndex ≤ request.prevLogIndex + offset)
    (hagree : ∀ before entry, before < offset → request.entries[before]? = some entry →
      n.termAt (request.prevLogIndex + 1 + before) = entry.term) :
    log.take (request.prevLogIndex + offset) = leaderLog.take (request.prevLogIndex + offset) ∧
      splice log request offset =
        leaderLog.take (request.prevLogIndex + request.entries.length) := by
  have hbase := h.base_le
  have hleader : request.prevLogIndex + request.entries.length ≤ leaderLog.length := by
    have hlength := hcut.entries.length_le
    have hprev := hcut.prev_le
    rw [List.length_drop] at hlength
    omega
  have hterm : Foundation.termAt LogEntry.term log (request.prevLogIndex + offset) =
      Foundation.termAt LogEntry.term leaderLog (request.prevLogIndex + offset) := by
    cases offset with
    | zero =>
        rw [Nat.add_zero] at hreaches huncommitted ⊢
        rcases h.holds.matchesAt_iff.mp hmatches with ⟨hzero, -⟩ | ⟨-, hsame⟩
        · rw [hzero, Foundation.termAt_zero, Foundation.termAt_zero]
        · rw [← h.holds.termAt_eq (hbase.trans huncommitted), hsame, hcut.prevTerm]
    | succ before =>
        have hentry := List.getElem?_eq_getElem (Nat.lt_of_succ_lt hwithin)
        have hposition : request.prevLogIndex + (before + 1) =
            request.prevLogIndex + 1 + before := by omega
        rw [hposition, (hcut.entry_term hentry).2,
          ← h.holds.termAt_eq (by omega), hagree before _ (Nat.lt_succ_self _) hentry]
  have hfront := h.matching _ hreaches (by omega) hterm
  refine ⟨hfront, ?_⟩
  have hentries : request.entries.drop offset =
      (leaderLog.drop (request.prevLogIndex + offset)).take (request.entries.length - offset) := by
    conv_lhs => rw [List.prefix_iff_eq_take.mp hcut.entries]
    rw [List.drop_take, List.drop_drop]
  have htotal : request.prevLogIndex + request.entries.length =
      request.prevLogIndex + offset + (request.entries.length - offset) := by omega
  rw [splice, hfront, hentries, ← List.take_add, ← htotal]

theorem Tracks.of_ledger (h : n.Tracks log leaderLog) (hledger : m.ledger = n.ledger) :
    m.Tracks log leaderLog ∧ Retains leaderLog n m log log := by
  have hholds := h.holds.of_ledger hledger
  simp only [ledger, Ledger.mk.injEq] at hledger
  obtain ⟨hterm, -, hbase, hbaseTerm, -, -, -, -, hcommit, -⟩ := hledger
  refine ⟨⟨hholds, h.numbered, ?_, ?_, h.matching⟩, hterm, hbase, hbaseTerm,
    fun _ hle _ _ => ⟨hle, rfl⟩⟩
  · rw [hbase, hcommit]
    exact h.base_le
  · rw [hcommit]
    exact h.commit_le

theorem Sustains.tracks (h : n.Sustains m) (hholds : m.Holds later) (hnumbered : Numbered later)
    (hbase : n.logBaseIndex ≤ n.commitIndex) (hmatching : Matching LogEntry.term later leaderLog) :
    m.Tracks later leaderLog :=
  ⟨hholds, hnumbered, h.base.trans_le (hbase.trans h.commit),
    hholds.lastIndex ▸ h.commit_le, hmatching⟩

theorem Tracks.step (h : n.Tracks log leaderLog) (hleader : Numbered leaderLog)
    (hcut : CutFrom leaderLog n.term request) :
    ∃ later, (n.handleAppendEntries request).1.Tracks later leaderLog ∧
      Retains leaderLog n (n.handleAppendEntries request).1 log later := by
  by_cases hmatches : n.matchesAt request.prevLogIndex request.prevLogTerm = true
  · obtain ⟨hsustains, hmerges⟩ := h.holds.handleAppendEntries h.numbered h.base_le h.commit_le
      hcut.term (hcut.consecutive hleader) hmatches
    cases hmerges with
    | refused rejects ledger => exact ⟨log, h.of_ledger ledger⟩
    | held accepts agree holds =>
        exact ⟨log, hsustains.tracks holds h.numbered h.base_le h.matching, hsustains.term,
          hsustains.base, hsustains.baseTerm, fun _ hle _ _ => ⟨hle, rfl⟩⟩
    | spliced accepts offset within reaches uncommitted agree new holds numbered =>
        obtain ⟨hfront, hspliced⟩ := h.splice_eq hcut hmatches within reaches uncommitted agree
        have hmatching : Matching LogEntry.term (splice log request offset) leaderLog := by
          rw [hspliced]
          exact Matching.front (List.take_prefix _ _)
        refine ⟨_, hsustains.tracks holds numbered h.base_le hmatching, hsustains.term,
          hsustains.base, hsustains.baseTerm, ?_⟩
        intro index hle hinside hterm
        -- A position behind the splice would make the differing entry a matching one.
        have hbefore : index ≤ request.prevLogIndex + offset := by
          by_contra hbehind
          have hentry := List.getElem?_eq_getElem within
          have hbase := h.base_le
          have hdiffers := (new.resolve_left (by omega)) _ hentry
          have hsame := h.matching index hle hinside hterm
          rw [h.holds.termAt_eq (by omega), ← (hcut.entry_term hentry).2,
            ← termAt_take (show request.prevLogIndex + 1 + offset ≤ index by omega), hsame,
            termAt_take (by omega)] at hdiffers
          exact hdiffers rfl
        rw [splice_length reaches within.le, splice, List.take_append_of_le_length (by
          rw [List.length_take]; omega), List.take_take, Nat.min_eq_left hbefore]
        exact ⟨by omega, rfl⟩
  · rw [Bool.not_eq_true] at hmatches
    rcases handleAppendEntries_cases hcut.term with ⟨-, hledger, -⟩ | ⟨_, _, _, -, -, -, hsame, -⟩
    · exact ⟨log, h.of_ledger hledger⟩
    · simp [hmatches] at hsame

theorem Tracks.deliver (h : n.Tracks log leaderLog) (hleader : Numbered leaderLog)
    {requests : List AppendEntries} (hcut : ∀ request ∈ requests, CutFrom leaderLog n.term request) :
    ∃ later, (n.deliver requests).Tracks later leaderLog ∧
      Retains leaderLog n (n.deliver requests) log later := by
  induction requests generalizing n log with
  | nil => exact ⟨log, h, Retains.refl leaderLog n log⟩
  | cons request requests ih =>
      obtain ⟨next, hnext, hretains⟩ := h.step hleader (hcut request (by simp))
      obtain ⟨later, hlater, hrest⟩ := ih hnext fun other hother =>
        hretains.term.symm ▸ hcut other (by simp [hother])
      exact ⟨later, hlater, hretains.trans hrest⟩

/-! ### Requests that come again -/

def Covers (n : Node) (request : AppendEntries) : Prop :=
  ∀ offset entry, request.entries[offset]? = some entry →
    request.prevLogIndex + 1 + offset ≤ n.lastLogIndex ∧
      n.termAt (request.prevLogIndex + 1 + offset) = entry.term

theorem Tracks.covers_retained (h : n.Tracks log leaderLog) (h' : m.Tracks later leaderLog)
    (hretains : Retains leaderLog n m log later) (hcut : CutFrom leaderLog term request)
    (hcovers : n.Covers request) : m.Covers request := by
  intro offset entry hentry
  obtain ⟨hle, hterm⟩ := hcovers offset entry hentry
  obtain ⟨hinside, hleaderTerm⟩ := hcut.entry_term hentry
  rcases Nat.lt_or_ge (request.prevLogIndex + 1 + offset) n.logBaseIndex with hbelow | habove
  · refine ⟨?_, ?_⟩
    · rw [h'.holds.lastIndex]
      have := h'.holds.base_le
      rw [hretains.base] at this
      omega
    · rw [h'.holds.termAt_below (hretains.base.symm ▸ hbelow), ← hterm, h.holds.termAt_below hbelow]
  · rw [h.holds.termAt_eq habove] at hterm
    rw [h.holds.lastIndex] at hle
    obtain ⟨hlater, hsame⟩ := hretains.keeps _ hle hinside (hterm.trans hleaderTerm.symm)
    refine ⟨h'.holds.lastIndex ▸ hlater, ?_⟩
    rw [h'.holds.termAt_eq (hretains.base.symm ▸ habove), ← hterm, ← termAt_take le_rfl, hsame,
      termAt_take le_rfl]

theorem Tracks.covers_step (h : n.Tracks log leaderLog) (hleader : Numbered leaderLog)
    (hcut : CutFrom leaderLog n.term request) (haccepts : ¬ n.Rejects request) :
    (n.handleAppendEntries request).1.Covers request := by
  rcases handleAppendEntries_cases hcut.term with ⟨hrejects, -⟩ | ⟨_, _, _, -, -, -, hmatches, -⟩
  · exact absurd hrejects haccepts
  obtain ⟨hsustains, hmerges⟩ := h.holds.handleAppendEntries h.numbered h.base_le h.commit_le
    hcut.term (hcut.consecutive hleader) hmatches
  cases hmerges with
  | refused rejects ledger => exact absurd rejects haccepts
  | held accepts agree holds =>
      have hcovers : n.Covers request := by
        intro offset entry hentry
        rw [h.holds.lastIndex]
        exact agree offset entry hentry
      exact h.covers_retained (hsustains.tracks holds h.numbered h.base_le h.matching)
        ⟨hsustains.term, hsustains.base, hsustains.baseTerm, fun _ hle _ _ => ⟨hle, rfl⟩⟩ hcut hcovers
  | spliced accepts offset within reaches uncommitted agree new holds numbered =>
      obtain ⟨-, hspliced⟩ := h.splice_eq hcut hmatches within reaches uncommitted agree
      have hbase := h.base_le
      intro later entry hentry
      obtain ⟨-, hterm⟩ := hcut.entry_term hentry
      have hlater := (List.getElem?_eq_some_iff.mp hentry).1
      refine ⟨by rw [holds.lastIndex, splice_length reaches within.le]; omega, ?_⟩
      rcases Nat.lt_or_ge (request.prevLogIndex + 1 + later) n.logBaseIndex with hbelow | habove
      · rw [holds.termAt_below (hsustains.base.symm ▸ hbelow),
          ← agree later entry (by omega) hentry, h.holds.termAt_below hbelow]
      · rw [holds.termAt_eq (hsustains.base.symm ▸ habove), hspliced, termAt_take (by omega), hterm]

theorem Covers.log_eq (hcovers : n.Covers request) (h : n.Tracks log leaderLog)
    (hleader : Numbered leaderLog) (hcut : CutFrom leaderLog n.term request) :
    (n.handleAppendEntries request).1.log = n.log := by
  rcases handleAppendEntries_cases hcut.term with ⟨-, hledger, -⟩ | ⟨_, _, _, -, -, -, hmatches, -⟩
  · exact congrArg Ledger.log hledger
  obtain ⟨hsustains, hmerges⟩ := h.holds.handleAppendEntries h.numbered h.base_le h.commit_le
    hcut.term (hcut.consecutive hleader) hmatches
  cases hmerges with
  | refused rejects ledger => exact congrArg Ledger.log ledger
  | held accepts agree holds => rw [holds.log_eq, h.holds.log_eq, hsustains.base]
  | spliced accepts offset within reaches uncommitted agree new holds numbered =>
      obtain ⟨hle, hterm⟩ := hcovers offset _ (List.getElem?_eq_getElem within)
      rw [h.holds.lastIndex] at hle
      exact absurd hterm ((new.resolve_left (by omega)) _ (List.getElem?_eq_getElem within))

theorem Rejects.again (hrejects : n.Rejects request) (hterm : request.term = n.term) :
    ((n.handleAppendEntries request).1.handleAppendEntries request).1.log =
      (n.handleAppendEntries request).1.log := by
  rcases handleAppendEntries_cases hterm with ⟨-, hledger, hreason⟩ | ⟨_, _, _, -, haccepts, -⟩
  · have hagain : request.term = (n.handleAppendEntries request).1.term :=
      hterm.trans (congrArg Ledger.term hledger).symm
    rcases handleAppendEntries_cases hagain with
      ⟨-, hsame, -⟩ | ⟨_, _, _, -, -, -, hmatches, hentries⟩
    · exact congrArg Ledger.log hsame
    · rw [matchesAt_of_ledger hledger] at hmatches
      rw [entriesToAppend, entriesFrom_of_ledger hledger] at hentries
      rcases hreason with hdiffers | hnone
      · simp [hdiffers] at hmatches
      · exact absurd (hnone.symm.trans hentries) (by simp)
  · exact absurd hrejects haccepts

theorem deliver_append (n : Node) (before after : List AppendEntries) :
    n.deliver (before ++ after) = (n.deliver before).deliver after := by
  induction before generalizing n with
  | nil => rfl
  | cons request before ih => exact ih _

/-- A request once accepted changes nothing when it comes again, whatever came in between. -/
theorem Tracks.redelivered (h : n.Tracks log leaderLog) (hleader : Numbered leaderLog)
    (hcut : CutFrom leaderLog n.term request) (haccepts : ¬ n.Rejects request)
    {requests : List AppendEntries} (hcuts : ∀ other ∈ requests, CutFrom leaderLog n.term other) :
    (((n.handleAppendEntries request).1.deliver requests).handleAppendEntries request).1.log =
      ((n.handleAppendEntries request).1.deliver requests).log := by
  obtain ⟨next, hnext, hretains⟩ := h.step hleader hcut
  have hcovers := h.covers_step hleader hcut haccepts
  generalize (n.handleAppendEntries request).1 = m at hnext hretains hcovers
  obtain ⟨later, hlater, hrest⟩ := hnext.deliver hleader fun other hother =>
    hretains.term.symm ▸ hcuts other hother
  refine (hnext.covers_retained hlater hrest hcut hcovers).log_eq hlater hleader ?_
  rw [hrest.term, hretains.term]
  exact hcut

/--
A request of the current term is merged or leaves the log as it was.  Requests cut from one
Leader log, in any order and any number of times, take nothing away that matched it, and a
request that comes again changes nothing: right after itself, and once accepted at any time.
-/
theorem appends_merge (n : Node) (h : n.Contiguous) (hbase : n.logBaseIndex ≤ n.commitIndex)
    (hcommit : n.commitIndex ≤ n.lastLogIndex) :
    (∀ request : AppendEntries, request.term = n.term →
      (n.Rejects request →
        (n.handleAppendEntries request).1.log = n.log ∧
        (n.handleAppendEntries request).1.lastLogIndex = n.lastLogIndex ∧
        (n.handleAppendEntries request).1.commitIndex = n.commitIndex) ∧
      (Consecutive request → n.matchesAt request.prevLogIndex request.prevLogTerm = true →
        ¬ n.Rejects request → n.Merged request (n.handleAppendEntries request).1)) ∧
    ∀ log leaderLog, n.Holds log → Numbered log → Numbered leaderLog →
      Matching LogEntry.term log leaderLog →
      ∀ before after, (∀ request ∈ before ++ after, CutFrom leaderLog n.term request) →
        (∀ index, n.logBaseIndex < index → index ≤ (n.deliver before).lastLogIndex →
          index ≤ leaderLog.length →
          (n.deliver before).termAt index = Foundation.termAt LogEntry.term leaderLog index →
          (n.deliver (before ++ after)).entryAt index = (n.deliver before).entryAt index) ∧
        ∀ request, CutFrom leaderLog n.term request →
          (n.deliver (before ++ [request, request])).log =
            (n.deliver (before ++ [request])).log ∧
          (¬ (n.deliver before).Rejects request →
            (n.deliver (before ++ request :: after ++ [request])).log =
              (n.deliver (before ++ request :: after)).log) := by
  constructor
  · intro request hterm
    constructor
    · intro hrejects
      rcases handleAppendEntries_cases hterm with ⟨-, hledger, -⟩ | ⟨_, _, _, -, haccepts, -⟩
      · exact ⟨congrArg Ledger.log hledger, congrArg Ledger.lastLogIndex hledger,
          congrArg Ledger.commitIndex hledger⟩
      · exact absurd hrejects haccepts
    · intro hconsecutive hmatches haccepts
      obtain ⟨log, hnumbered, hholds⟩ := h.holds
      obtain ⟨hsustains, hmerges⟩ := hholds.handleAppendEntries hnumbered hbase
        (hholds.lastIndex ▸ hcommit) hterm hconsecutive hmatches
      exact hmerges.merged haccepts hholds hnumbered hbase hsustains
  · intro log leaderLog hholds hnumbered hleader hmatching before after hcut
    have htracks : n.Tracks log leaderLog :=
      ⟨hholds, hnumbered, hbase, hholds.lastIndex ▸ hcommit, hmatching⟩
    have hbefore : ∀ request ∈ before, CutFrom leaderLog n.term request :=
      fun request hrequest => hcut request (List.mem_append_left _ hrequest)
    obtain ⟨middle, hmiddle, hretains⟩ := htracks.deliver hleader hbefore
    have hafter : ∀ request ∈ after, CutFrom leaderLog (n.deliver before).term request := by
      intro request hrequest
      rw [hretains.term]
      exact hcut request (List.mem_append_right _ hrequest)
    rw [← hretains.term, ← hretains.base]
    simp only [List.append_assoc, deliver_append, List.cons_append]
    generalize n.deliver before = mid at hmiddle hafter
    constructor
    · intro index habove hle hinside hterm
      obtain ⟨later, hlater, hkept⟩ := hmiddle.deliver hleader hafter
      rw [hmiddle.holds.termAt_eq habove.le] at hterm
      obtain ⟨hlength, hsame⟩ := hkept.keeps index (hmiddle.holds.lastIndex ▸ hle) hinside hterm
      refine hmiddle.holds.entryAt_congr hlater.holds hkept.base ?_
      have hposition : index - 1 < index := by omega
      rw [← List.getElem?_take_of_lt hposition, hsame, List.getElem?_take_of_lt hposition]
    · intro request hrequest
      refine ⟨?_, fun haccepts => ?_⟩
      · by_cases hrejects : mid.Rejects request
        · exact hrejects.again hrequest.term
        · have hnone : ∀ other ∈ ([] : List AppendEntries), CutFrom leaderLog mid.term other := by
            simp
          exact hmiddle.redelivered hleader hrequest hrejects hnone
      · have hlast := hmiddle.redelivered hleader hrequest haccepts hafter
        have hsplit := deliver_append (mid.handleAppendEntries request).1 after [request]
        exact (congrArg Node.log hsplit).trans hlast

def followerOf (term : Nat) (terms : List Nat) : Node :=
  newNodeFromRecoveredState [1] [[2], [3]] { hardState := ⟨term, []⟩, log := logOf terms }

def requestOf (term : Nat) (terms : List Nat) (prev last : Nat) : AppendEntries :=
  { sender := [2]
    term := term
    requestID := 1
    prevLogIndex := prev
    prevLogTerm := Foundation.termAt LogEntry.term (logOf terms) prev
    entries := ((logOf terms).take last).drop prev
    leaderCommit := 0
    readID := 0 }

theorem followerOf_holds (term : Nat) (terms : List Nat) :
    (followerOf term terms).Holds (logOf terms) :=
  holds_newNodeFromRecoveredState _ _ (logOf_numbered terms) (Nat.zero_le _) rfl rfl

theorem appends_merge_sample :
    (followerOf 2 [1, 1]).Merged (requestOf 2 [1, 2, 2] 1 3)
      ((followerOf 2 [1, 1]).handleAppendEntries (requestOf 2 [1, 2, 2] 1 3)).1 := by
  have hcontiguous := (followerOf_holds 2 [1, 1]).contiguous (logOf_numbered [1, 1])
  have hconsecutive : Consecutive (requestOf 2 [1, 2, 2] 1 3) := by
    intro offset entry hentry
    rcases offset with _ | _ | offset
    · cases hentry
      rfl
    · cases hentry
      rfl
    · cases hentry
  have haccepts : ¬ (followerOf 2 [1, 1]).Rejects (requestOf 2 [1, 2, 2] 1 3) := by
    have hactions : ((followerOf 2 [1, 1]).handleAppendEntries (requestOf 2 [1, 2, 2] 1 3)).2 =
        [.resetElectionTimer, .persistLogEntries 1 2 ((logOf [1, 2, 2]).drop 1)] := by decide +kernel
    simp [Rejects, hactions]
  exact ((appends_merge (followerOf 2 [1, 1]) hcontiguous (by decide) (by decide)).1 _ rfl).2
    hconsecutive (by decide) haccepts

/--
Entries behind the first new one are not looked at, so a gap among them is accepted.  Without log
matching an entry that agrees with the Leader's is cut off, and a request that was refused before
its gap closed changes the log when it comes again.
-/
theorem appends_unmatched :
    (∃ request : AppendEntries, request.term = (followerOf 1 []).term ∧
      (followerOf 1 []).matchesAt request.prevLogIndex request.prevLogTerm = true ∧
      ¬ (followerOf 1 []).Rejects request ∧
      (∃ entry ∈ request.entries, entry.index = 7) ∧
      ((followerOf 1 []).handleAppendEntries request).1.entryAt 7 = none) ∧
    ((followerOf 2 [1, 2]).termAt 2 = Foundation.termAt LogEntry.term (logOf [2, 2]) 2 ∧
      ((followerOf 2 [1, 2]).deliver [requestOf 2 [2, 2] 0 1]).entryAt 2 = none) ∧
    ((followerOf 1 []).deliver [requestOf 1 [1, 1] 1 2, requestOf 1 [1, 1] 0 1]).log ≠
      ((followerOf 1 []).deliver [requestOf 1 [1, 1] 1 2, requestOf 1 [1, 1] 0 1,
        requestOf 1 [1, 1] 1 2]).log := by
  refine ⟨⟨{ requestOf 1 [1] 0 1 with entries := logOf [1] ++ [⟨7, 1, .noOp, .zero, 0, [], []⟩] },
    rfl, by decide, ?_, ⟨_, List.mem_append_right _ (List.mem_singleton.mpr rfl), rfl⟩, ?_⟩,
    ⟨?_, ?_⟩, ?_⟩
  · have hactions : ((followerOf 1 []).handleAppendEntries
        { requestOf 1 [1] 0 1 with
          entries := logOf [1] ++ [⟨7, 1, .noOp, .zero, 0, [], []⟩] }).2 =
        [.resetElectionTimer,
          .persistLogEntries 1 0 (logOf [1] ++ [⟨7, 1, .noOp, .zero, 0, [], []⟩])] := by
      decide +kernel
    simp [Rejects, hactions]
  all_goals decide +kernel

end Delivery

end Node

end QuorumKV.Raft
