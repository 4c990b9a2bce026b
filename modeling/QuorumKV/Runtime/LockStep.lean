import QuorumKV.Foundation.WorkQueue
import QuorumKV.Raft.Ordered
import QuorumKV.Runtime.Deferral
import QuorumKV.Runtime.Restart

/-!
# The core and the WAL in lock-step

The loop of `raftRuntime.step` as a work queue: durability actions are saved and
their completions stepped, the other actions are handed out.  `InStep` relates a
core and a WAL between two steps.  Whatever event comes next, the queue of its
actions ends after at most three writes with the two in step again, and an action
that speaks for durable state is handed out when that state is saved.
-/

namespace QuorumKV.Runtime

open Raft Foundation

/-! ## The loop as a work queue -/

def queue : WorkQueue Node Disk Action Event (List Write) where
  effect := persist
  save := Disk.saveAll
  step := Node.step

abbrev Instant := WorkQueue.Moment Node Disk Action Event

def instants (core : Node) (disk : Disk) (event : Event) : List Instant :=
  (queue.walk 3 (core.step event).1 disk (core.step event).2).1

def Follows (progress : Progress) (walked : List Instant × WorkQueue.Ending Node Disk) :
    Outcome → Prop
  | .completed done => walked.2 = .finished done.core done.disk ∧
      done.emitted = progress.emitted ++ WorkQueue.emitted walked.1
  | .refused _ => walked.2 = .refused
  | .exhausted => walked.2 = .exhausted

theorem Progress.save_refused {progress : Progress} {writes : List Write}
    (h : Disk.saveAll progress.disk writes = none) : (progress.save writes).2 = false := by
  induction writes generalizing progress with
  | nil => simp [Disk.saveAll] at h
  | cons write writes ih =>
      unfold Disk.saveAll at h
      unfold Progress.save
      cases hsave : Disk.save progress.disk write with
      | none => rfl
      | some disk =>
          rw [hsave, Option.bind_some] at h
          exact ih h

theorem drainWith_follows {next : Progress → List Action → Outcome}
    {walk : Node → Disk → List Action → List Instant × WorkQueue.Ending Node Disk}
    (hnext : ∀ progress actions,
      Follows progress (walk progress.core progress.disk actions) (next progress actions))
    (progress : Progress) (actions : List Action) :
    Follows progress (queue.walkWith walk progress.core progress.disk actions)
      (drainWith next progress actions) := by
  induction actions generalizing progress with
  | nil => exact ⟨rfl, (List.append_nil _).symm⟩
  | cons action actions ih =>
      have heffect : queue.effect action = persist action := rfl
      unfold drainWith WorkQueue.walkWith
      cases haction : persist action with
      | none =>
          have hrest := ih { progress with emitted := progress.emitted ++ [action] }
          rw [haction] at heffect
          simp only [heffect]
          generalize drainWith next _ actions = outcome at hrest ⊢
          cases outcome with
          | completed done =>
              refine ⟨hrest.1, hrest.2.trans ?_⟩
              simp [WorkQueue.emitted, WorkQueue.Moment.item?]
          | refused done => exact hrest
          | exhausted => exact hrest
      | some effect =>
          obtain ⟨writes, completion⟩ := effect
          have hqueue : queue.save progress.disk writes = Disk.saveAll progress.disk writes := rfl
          rw [haction] at heffect
          simp only [heffect, hqueue]
          cases hsave : Disk.saveAll progress.disk writes with
          | none =>
              have hrefused := Progress.save_refused hsave
              generalize progress.save writes = saved at hrefused
              obtain ⟨saved, accepted⟩ := saved
              cases hrefused
              rfl
          | some disk =>
              simp only [Progress.save_eq hsave]
              have hrest := hnext
                { progress with
                  core := (progress.core.step completion).1
                  disk := disk
                  writes := progress.writes ++ writes }
                (actions ++ (progress.core.step completion).2)
              generalize next _ _ = outcome at hrest ⊢
              cases outcome with
              | completed done => exact hrest
              | refused done => exact hrest
              | exhausted => exact hrest

theorem drain_follows (fuel : Nat) (progress : Progress) (actions : List Action) :
    Follows progress (queue.walk fuel progress.core progress.disk actions)
      (drain fuel progress actions) := by
  induction fuel generalizing progress actions with
  | zero =>
      change Follows progress (queue.walkWith (fun _ _ _ => ([], .exhausted)) progress.core
        progress.disk actions) (drainWith (fun _ _ => .exhausted) progress actions)
      refine drainWith_follows ?_ progress actions
      exact fun _ _ => rfl
  | succ fuel ih => exact drainWith_follows ih progress actions

/-! ## Saved state -/

def Disk.entryAt (disk : Disk) (index : Nat) : Option LogEntry :=
  if index ≤ disk.snapshotIndex then none else disk.log[index - disk.snapshotIndex - 1]?

def Backed (core : Node) (disk : Disk) : Action → Prop
  | .sendVoteRequest _ request => disk.hardState = ⟨request.term, request.sender⟩
  | .sendVoteResponse dest response =>
      response.granted = true → disk.hardState = ⟨response.term, dest⟩
  | .sendAppendEntriesResponse _ response =>
      response.success = true →
        disk.hardState.term = response.term ∧ response.matchIndex ≤ Disk.lastIndex disk ∧
        ∀ index, core.logBaseIndex < index → index ≤ response.matchIndex →
          Disk.entryAt disk index = core.entryAt index
  | .sendInstallSnapshotResponse _ response =>
      disk.hardState.term = response.term ∧
        (response.done = true → response.snapshotIndex ≤ disk.commitIndex)
  | .applyEntry entry =>
      entry.index ≤ disk.commitIndex ∧ Disk.entryAt disk entry.index = some entry
  | _ => True

/--
The moments of a step are as they should be.  A completion is stepped on a core whose
positions are in range; stepping that of a hard state reads no position.
-/
def Good : Instant → Prop
  | .emitted core disk action => Backed core disk action
  | .resumed _ (.hardStatePersisted _) => True
  | .resumed core _ => core.InRange

/-- The WAL holds the log of the core. -/
structure Mirrors (n : Node) (d : Disk) : Prop where
  base_le : d.snapshotIndex ≤ n.logBaseIndex
  log_eq : n.log = d.log.drop (n.logBaseIndex - d.snapshotIndex)
  last_eq : Disk.lastIndex d = n.lastLogIndex

/-- A core and its WAL between two steps. -/
structure InStep (n : Node) (d : Disk) : Prop where
  ordered : n.Ordered
  mirrors : Mirrors n d
  commit_eq : d.commitIndex = n.commitIndex
  hardState : d.hardState = ⟨n.term, n.votedFor⟩
  durableTerm : n.durableTerm = n.term
  durableVote : n.durableVotedFor = n.votedFor
  durableCommit : n.durableCommitIndex = n.commitIndex
  durableLog : n.durableLogIndex = n.lastLogIndex
  noHardState : n.pendingHardState = fun _ => none
  noLog : n.pendingLog = fun _ => none
  noCommit : n.pendingCommit = fun _ => none
  noSnapshot : n.pendingSnapshot = fun _ => none

def account (n : Node) : Ledger :=
  { n.ledger with term := 0, votedFor := [], durableTerm := 0, durableVotedFor := [] }

abbrev Steady (fuel : Nat) (n : Node) (d : Disk) (actions : List Action) : Prop :=
  queue.Safe InStep Good fuel n d actions

variable {n m : Node} {d : Disk} {fuel : Nat}

theorem Mirrors.entryAt_eq (h : Mirrors n d) {index : Nat} (hlt : n.logBaseIndex < index) :
    Disk.entryAt d index = n.entryAt index := by
  have hbase := h.base_le
  rw [Disk.entryAt, Node.entryAt, if_neg (by omega), if_neg (by omega), h.log_eq,
    List.getElem?_drop]
  congr 1
  omega

theorem Mirrors.truncateLog (h : Mirrors n d) {first : Nat} (hbase : n.logBaseIndex < first)
    (hfirst : first ≤ n.lastLogIndex + 1) :
    Mirrors (n.truncateLog first) { d with log := d.log.take (first - d.snapshotIndex - 1) } := by
  have hle := h.base_le
  have hlast := h.last_eq
  refine ⟨hle, ?_, ?_⟩
  · simp only [Node.truncateLog]
    rw [h.log_eq, List.drop_take]
    congr 1
    omega
  · simp only [Disk.lastIndex, Node.truncateLog, List.length_take] at hlast ⊢
    omega

theorem Mirrors.appendEntries (h : Mirrors n d) (hbase : n.logBaseIndex ≤ n.lastLogIndex)
    {entries : List LogEntry}
    (hlast : (n.appendEntries entries).lastLogIndex = n.lastLogIndex + entries.length) :
    Mirrors (n.appendEntries entries) { d with log := d.log ++ entries } := by
  have hle := h.base_le
  have hlength := h.last_eq
  simp only [Disk.lastIndex] at hlength
  refine ⟨hle, ?_, ?_⟩
  · simp only [Node.appendEntries]
    rw [h.log_eq, List.drop_append_of_le_length (by omega)]
  · simp only [Disk.lastIndex, List.length_append]
    rw [hlast]
    omega

theorem InStep.of_account (h : InStep n d) (haccount : account m = account n)
    (hbase : n.logBaseIndex ≤ m.lastApplied) (happlied : m.lastApplied ≤ n.commitIndex)
    (hterm : m.durableTerm = m.term) (hvote : m.durableVotedFor = m.votedFor) :
    InStep m { d with hardState := ⟨m.term, m.votedFor⟩ } := by
  have hcontiguous : ({ m with
      term := n.term
      votedFor := n.votedFor
      durableTerm := n.durableTerm
      durableVotedFor := n.durableVotedFor } : Node).Contiguous := by
    refine h.ordered.contiguous.of_ledger ?_
    simp only [account, Node.ledger, Ledger.mk.injEq] at haccount ⊢
    simp only [haccount, and_self]
  simp only [account, Node.ledger, Ledger.mk.injEq] at haccount
  obtain ⟨-, -, hlogBase, -, hlog, hlast, -, hdurable, hcommit, -, -, hdurableCommit, hhard, hplog,
    hpcommit, hpsnapshot, -⟩ := haccount
  refine
    { ordered := ⟨⟨hcontiguous.numbered, hcontiguous.lastIndex, hcontiguous.lastTerm,
        hcontiguous.start⟩, hlogBase ▸ hbase, hcommit ▸ happlied, ?_⟩
      mirrors := ⟨hlogBase ▸ h.mirrors.base_le, ?_, hlast ▸ h.mirrors.last_eq⟩
      commit_eq := hcommit ▸ h.commit_eq
      hardState := rfl
      durableTerm := hterm
      durableVote := hvote
      durableCommit := ?_
      durableLog := ?_
      noHardState := hhard.trans h.noHardState
      noLog := hplog.trans h.noLog
      noCommit := hpcommit.trans h.noCommit
      noSnapshot := hpsnapshot.trans h.noSnapshot }
  · rw [hcommit, hlast]
    exact h.ordered.commit_le
  · rw [hlog, hlogBase]
    exact h.mirrors.log_eq
  · rw [hdurableCommit, hcommit]
    exact h.durableCommit
  · rw [hdurable, hlast]
    exact h.durableLog

theorem InStep.of_ledger (h : InStep n d) (hledger : m.ledger = n.ledger)
    (hbase : n.logBaseIndex ≤ m.lastApplied) (happlied : m.lastApplied ≤ n.commitIndex) :
    InStep m d := by
  have haccount : account m = account n := by rw [account, account, hledger]
  simp only [Node.ledger, Ledger.mk.injEq] at hledger
  obtain ⟨hterm, hvote, -, -, -, -, -, -, -, hdurableTerm, hdurableVote, -⟩ := hledger
  have hrest := h.of_account haccount hbase happlied
    (by rw [hdurableTerm, hterm, h.durableTerm]) (by rw [hdurableVote, hvote, h.durableVote])
  have hdisk : { d with hardState := ⟨m.term, m.votedFor⟩ } = d := by
    rw [hterm, hvote, ← h.hardState]
  rwa [hdisk] at hrest

theorem InStep.kept (h : InStep n d) (hledger : m.ledger = n.ledger)
    (happlied : m.lastApplied = n.lastApplied) : InStep m d :=
  h.of_ledger hledger (happlied ▸ h.ordered.base_le) (happlied ▸ h.ordered.applied_le)

theorem InStep.inRange (h : InStep n d) : n.InRange := by
  refine h.ordered.inRange h.durableCommit.le fun id pending hsome => ?_
  rw [h.noCommit] at hsome
  cases hsome

/-! ## Actions that speak for nothing durable -/

def Neutral (action : Action) : Prop :=
  persist action = none ∧ ∀ core disk, Backed core disk action

def Parked (n : Node) (action : Action) : Prop :=
  persist action = none ∧ ∀ m d, InStep m d → m.term = n.term →
    m.lastLogIndex = n.lastLogIndex → Backed m d action

theorem Neutral.parked {action : Action} (h : Neutral action) : Parked n action :=
  ⟨h.1, fun m d _ _ _ => h.2 m d⟩

theorem neutral_of_replicates {action : Action} (h : replicates action = true) :
    Neutral action := by
  cases action <;> first | exact ⟨rfl, fun _ _ => trivial⟩ | cases h

theorem neutral_sendAppendEntriesTo (n : Node) (peer : NodeID) (readID : ReadID) :
    ∀ action ∈ (n.sendAppendEntriesTo peer readID).2, Neutral action := fun action haction =>
  neutral_of_replicates (sendAppendEntriesTo_replicates n peer readID action haction)

theorem neutral_sendAppendEntries (n : Node) (readID : ReadID) :
    ∀ action ∈ (n.sendAppendEntries readID).2, Neutral action := fun action haction =>
  neutral_of_replicates (sendToPeers_replicates readID n.peers n action haction)

theorem neutral_acknowledgeRead (n : Node) (response : AppendEntriesResponse) :
    ∀ action ∈ (n.acknowledgeRead response).2, Neutral action := by
  unfold Node.acknowledgeRead
  dsimp only
  intro action haction
  repeat' split at haction
  · simp at haction
  · simp at haction
  · simp at haction
  · obtain ⟨read, -, rfl⟩ := List.mem_map.mp haction
    exact ⟨rfl, fun _ _ => trivial⟩

theorem InStep.neutral (h : InStep n d) (hledger : m.ledger = n.ledger)
    (happlied : m.lastApplied = n.lastApplied) {actions : List Action}
    (hneutral : ∀ action ∈ actions, Neutral action) : Steady fuel m d actions :=
  .all (fun action haction => ⟨(hneutral action haction).1, (hneutral action haction).2 _ _⟩)
    (h.kept hledger happlied)

/-! ## Durability actions -/

theorem steady_hardState {after rest : List Action}
    (hnone : m.pendingHardState = fun _ => none)
    (hnext : Steady fuel (hardened m) { d with hardState := ⟨m.term, m.votedFor⟩ }
      (rest ++ after)) :
    Steady (fuel + 1) (m.persistHardState after).1 d ((m.persistHardState after).2 ++ rest) := by
  have hstep := step_hardStatePersisted m after hnone
  refine .save rfl (fun _ _ => trivial) fun saved hsaved => ?_
  cases hsaved
  change Steady fuel ((m.persistHardState after).1.step _).1 _
    (rest ++ ((m.persistHardState after).1.step _).2)
  rw [hstep]
  exact hnext

theorem InStep.hardened (h : InStep n d) (haccount : account m = account n)
    (happlied : m.lastApplied = n.lastApplied) :
    InStep (hardened m) { d with hardState := ⟨m.term, m.votedFor⟩ } := by
  have haccount' : account (Runtime.hardened m) = account n := haccount
  exact h.of_account haccount' (happlied ▸ h.ordered.base_le) (happlied ▸ h.ordered.applied_le)
    rfl rfl

theorem InStep.adopts (h : InStep n d) (haccount : account m = account n)
    (happlied : m.lastApplied = n.lastApplied) {after : List Action}
    (hafter : ∀ action ∈ after, persist action = none ∧
      ∀ core disk, disk.hardState = ⟨m.term, m.votedFor⟩ → Backed core disk action) :
    Steady (fuel + 1) (m.persistHardState after).1 d (m.persistHardState after).2 := by
  have hnone : m.pendingHardState = fun _ => none :=
    (congrArg Ledger.pendingHardState haccount :).trans h.noHardState
  have hnext : Steady fuel (Runtime.hardened m) { d with hardState := ⟨m.term, m.votedFor⟩ }
      ([] ++ after) :=
    .all (fun action haction => ⟨(hafter action haction).1, (hafter action haction).2 _ _ rfl⟩)
      (h.hardened haccount happlied)
  have hsteady := steady_hardState hnone hnext
  rwa [List.append_nil] at hsteady

theorem InStep.applies (h : InStep n d) (index : Nat) (hle : index ≤ n.commitIndex) :
    InStep (n.applyThrough index).1 d ∧ ∀ action ∈ (n.applyThrough index).2,
      persist action = none ∧ ∀ core, Backed core d action := by
  have hlast := h.ordered.commit_le
  have hbase := h.ordered.base_le
  have happlied := n.applyThrough_lastApplied h.ordered.contiguous hbase (hle.trans hlast)
  refine ⟨h.of_ledger (Node.ledger_applyThrough index) ?_ ?_, fun action haction => ?_⟩
  · rw [happlied]
    exact hbase.trans (le_max_left _ _)
  · rw [happlied]
    exact max_le h.ordered.applied_le hle
  · have happlies := n.applyThrough_applies index action haction
    cases happlies with
    | @entry entry position above within found =>
        have hbelow : n.logBaseIndex < position := by omega
        have hindex := h.ordered.contiguous.numbered _ _ found
        obtain rfl : entry.index = position := by omega
        refine ⟨rfl, fun core => ⟨?_, ?_⟩⟩
        · rw [h.commit_eq]
          exact within.trans hle
        · rw [h.mirrors.entryAt_eq hbelow, Node.entryAt, if_neg (Nat.not_le.mpr hbelow), found]
    | ready term => exact ⟨rfl, fun _ => trivial⟩
    | read readID commitIndex => exact ⟨rfl, fun _ => trivial⟩

theorem InStep.commits (h : InStep n d) {index : Nat} (hlow : n.commitIndex ≤ index)
    (hhigh : index ≤ n.lastLogIndex) {after rest : List Action}
    (hafter : ∀ action ∈ after, Parked n action) (hrest : ∀ action ∈ rest, Parked n action) :
    Steady (fuel + 1) (({ n with commitIndex := index } : Node).persistCommit after).1 d
      ((({ n with commitIndex := index } : Node).persistCommit after).2 ++ rest) := by
  obtain ⟨k, hk⟩ : ∃ k : Node, k = { n with commitIndex := index } := ⟨_, rfl⟩
  have hordered : k.Ordered := by
    rw [hk]
    exact ⟨⟨h.ordered.contiguous.numbered, h.ordered.contiguous.lastIndex,
      h.ordered.contiguous.lastTerm, h.ordered.contiguous.start⟩, h.ordered.base_le,
      h.ordered.applied_le.trans hlow, hhigh⟩
  have hsettled : InStep (settled k) { d with commitIndex := index } := by
    have hmax : max n.durableCommitIndex index = index := by
      rw [h.durableCommit, max_eq_right hlow]
    rw [hk] at hordered ⊢
    exact
      { ordered := ⟨⟨hordered.contiguous.numbered, hordered.contiguous.lastIndex,
          hordered.contiguous.lastTerm, hordered.contiguous.start⟩, hordered.base_le,
          hordered.applied_le, hordered.commit_le⟩
        mirrors := ⟨h.mirrors.base_le, h.mirrors.log_eq, h.mirrors.last_eq⟩
        commit_eq := rfl
        hardState := h.hardState
        durableTerm := h.durableTerm
        durableVote := h.durableVote
        durableCommit := hmax
        durableLog := h.durableLog
        noHardState := h.noHardState
        noLog := h.noLog
        noCommit := h.noCommit
        noSnapshot := h.noSnapshot }
  have hindex : k.commitIndex = index := by rw [hk]
  have hnone : k.pendingCommit = fun _ => none := by
    rw [hk]
    exact h.noCommit
  have hterm : (settled k).term = n.term := by rw [hk]; rfl
  have hlastIndex : (settled k).lastLogIndex = n.lastLogIndex := by rw [hk]; rfl
  have hstep := step_commitIndexPersisted k after hnone
  rw [← hk]
  refine .save rfl (fun _ _ => ?_) fun saved hsaved => ?_
  · change (k.persistCommit after).1.InRange
    refine (show (k.persistCommit after).1.Ordered from ⟨⟨hordered.contiguous.numbered,
      hordered.contiguous.lastIndex, hordered.contiguous.lastTerm, hordered.contiguous.start⟩,
      hordered.base_le, hordered.applied_le, hordered.commit_le⟩).inRange ?_ ?_
    · change k.durableCommitIndex ≤ k.commitIndex
      rw [hk]
      exact h.durableCommit.le.trans hlow
    · intro id pending hsome
      simp only [Node.persistCommit, hnone, Function.update_apply] at hsome
      split at hsome
      · cases hsome
        exact le_rfl
      · cases hsome
  · have hdisk : saved = { d with commitIndex := index } := by
      simp only [queue, Disk.saveAll, Disk.save, hindex] at hsaved
      split at hsaved
      · simp at hsaved
      · exact (Option.some.inj hsaved).symm
    rw [hdisk]
    change Steady fuel ((k.persistCommit after).1.step _).1 _
      (rest ++ ((k.persistCommit after).1.step _).2)
    rw [hstep, hindex]
    obtain ⟨happlied, hactions⟩ := hsettled.applies index hindex.ge
    have hledger := Node.ledger_applyThrough (n := settled k) index
    have hparked : ∀ action, Parked n action → persist action = none ∧
        Backed ((settled k).applyThrough index).1 { d with commitIndex := index } action := by
      intro action hparked
      refine ⟨hparked.1, hparked.2 _ _ happlied ?_ ?_⟩
      · exact (congrArg Ledger.term hledger :).trans hterm
      · exact (congrArg Ledger.lastLogIndex hledger :).trans hlastIndex
    refine .all (fun action haction => ?_) happlied
    rcases List.mem_append.mp haction with haction | haction
    · exact hparked action (hrest action haction)
    rcases List.mem_append.mp haction with haction | haction
    · exact ⟨(hactions action haction).1, (hactions action haction).2 _⟩
    · exact hparked action (hafter action haction)

theorem InStep.advances (h : InStep n d) {leaderCommit : Nat} {after : List Action}
    (hafter : ∀ action ∈ after, Parked n action) :
    Steady (fuel + 1) (n.advanceFollowerCommit leaderCommit after).1 d
      (n.advanceFollowerCommit leaderCommit after).2 := by
  unfold Node.advanceFollowerCommit
  dsimp only
  split
  next hraised =>
    have hnone : ∀ action ∈ ([] : List Action), Parked n action := by simp
    have hcommits : Steady (fuel + 1) _ d _ :=
      h.commits hraised.le (min_le_right _ _) hafter hnone
    rwa [List.append_nil] at hcommits
  · obtain ⟨happlied, hactions⟩ := h.applies n.durableCommitIndex h.durableCommit.le
    have hledger := Node.ledger_applyThrough (n := n) n.durableCommitIndex
    refine .all (fun action haction => ?_) happlied
    rcases List.mem_append.mp haction with haction | haction
    · exact ⟨(hactions action haction).1, (hactions action haction).2 _⟩
    · obtain ⟨hplain, hbacked⟩ := hafter action haction
      exact ⟨hplain, hbacked _ _ happlied (congrArg Ledger.term hledger :)
        (congrArg Ledger.lastLogIndex hledger :)⟩

/-! ## Appended entries -/

theorem consecutive_index {last : Nat} {entries : List LogEntry}
    (h : consecutive last entries = true) : ∀ offset entry, entries[offset]? = some entry →
      entry.index = last + offset + 1 := by
  induction entries generalizing last with
  | nil => simp
  | cons first entries ih =>
      simp only [consecutive, Bool.and_eq_true, beq_iff_eq] at h
      intro offset entry hentry
      cases offset with
      | zero =>
          obtain rfl : first = entry := by simpa using hentry
          exact h.1
      | succ offset =>
          have hindex := ih h.2 offset entry hentry
          omega

theorem saveAll_entries {saved : Disk} {entries : List LogEntry}
    (h : Disk.saveAll d [.entries entries] = some saved) :
    consecutive (Disk.lastIndex d) entries = true ∧
      saved = { d with log := d.log ++ entries } := by
  simp only [Disk.saveAll, Disk.save] at h
  split at h
  · simp at h
  next haccepted =>
    rw [not_or, Bool.not_eq_false] at haccepted
    exact ⟨haccepted.2, (Option.some.inj h).symm⟩

def cutBefore (n : Node) (truncateFrom : Nat) : Node :=
  if truncateFrom ≠ 0 then n.truncateLog truncateFrom else n

def outsideLog (n : Node) : Ledger :=
  { n.ledger with log := [], lastLogIndex := 0, lastLogTerm := 0, durableLogIndex := 0 }

structure Appended (n m : Node) (d : Disk) (saved : Disk) : Prop where
  ordered : m.Ordered
  mirrors : Mirrors m saved
  outside : outsideLog m = outsideLog n
  durable_le : m.durableLogIndex ≤ m.lastLogIndex
  hardState : saved.hardState = d.hardState
  savedCommit : saved.commitIndex = d.commitIndex

theorem InStep.cut (h : InStep n d) {truncateFrom : Nat}
    (hcut : truncateFrom = 0 ∨ n.commitIndex < truncateFrom ∧ truncateFrom ≤ n.lastLogIndex)
    {entries : List LogEntry} {saved : Disk}
    (hsaved : Disk.saveAll d ((if truncateFrom ≠ 0 then [.truncation truncateFrom] else []) ++
      [.entries entries]) = some saved) :
    ∃ cutDisk, Disk.saveAll cutDisk [.entries entries] = some saved ∧
      Appended n (cutBefore n truncateFrom) d cutDisk := by
  have hbase := h.ordered.base_le.trans h.ordered.applied_le
  rcases hcut with rfl | ⟨hlower, hupper⟩
  · refine ⟨d, hsaved, ?_⟩
    rw [cutBefore, if_neg (by simp)]
    exact ⟨h.ordered, h.mirrors, rfl, h.durableLog.le, rfl, rfl⟩
  · have hpos : truncateFrom ≠ 0 := by omega
    rw [if_pos hpos, List.singleton_append, Disk.saveAll] at hsaved
    obtain ⟨cutDisk, hcutDisk, hrest⟩ := Option.bind_eq_some_iff.mp hsaved
    simp only [Disk.save] at hcutDisk
    split at hcutDisk
    · simp at hcutDisk
    obtain rfl := Option.some.inj hcutDisk
    refine ⟨_, hrest, ?_⟩
    have hcontiguous := h.ordered.contiguous.truncateLog
      (by omega : n.logBaseIndex < truncateFrom) (by omega)
    have hmirrors := h.mirrors.truncateLog (by omega : n.logBaseIndex < truncateFrom) (by omega)
    rw [cutBefore, if_pos hpos]
    refine ⟨⟨hcontiguous, h.ordered.base_le, h.ordered.applied_le, ?_⟩, hmirrors, rfl,
      min_le_right _ _, rfl, rfl⟩
    change n.commitIndex ≤ truncateFrom - 1
    omega

theorem Appended.appendEntries {k : Node} {cutDisk saved : Disk} (h : Appended n k d cutDisk)
    {entries : List LogEntry} (hne : entries ≠ [])
    (hsaved : Disk.saveAll cutDisk [.entries entries] = some saved) :
    Appended n (k.appendEntries entries) d saved := by
  obtain ⟨hconsecutive, rfl⟩ := saveAll_entries hsaved
  rw [h.mirrors.last_eq] at hconsecutive
  obtain ⟨hcontiguous, hlast⟩ :=
    h.ordered.contiguous.appendEntries hne (consecutive_index hconsecutive)
  have hcommit := h.ordered.commit_le
  have hdurable := h.durable_le
  have hbase := h.ordered.base_le.trans (h.ordered.applied_le.trans hcommit)
  refine ⟨⟨hcontiguous, h.ordered.base_le, h.ordered.applied_le, ?_⟩,
    h.mirrors.appendEntries hbase hlast, h.outside, ?_, h.hardState, h.savedCommit⟩
  · rw [hlast]
    exact hcommit.trans (Nat.le_add_right _ _)
  · rw [hlast]
    exact hdurable.trans (Nat.le_add_right _ _)

theorem Appended.of_ledger {k : Node} {saved : Disk} (h : Appended n k d saved)
    (hledger : m.ledger = k.ledger) (happlied : m.lastApplied = k.lastApplied) :
    Appended n m d saved := by
  have houtside : outsideLog m = outsideLog k := by rw [outsideLog, outsideLog, hledger]
  have hcontiguous := h.ordered.contiguous.of_ledger hledger
  simp only [Node.ledger, Ledger.mk.injEq] at hledger
  obtain ⟨-, -, hbase, -, hlog, hlast, -, hdurable, hcommit, -⟩ := hledger
  refine ⟨⟨hcontiguous, ?_, ?_, ?_⟩, ⟨hbase ▸ h.mirrors.base_le, ?_, hlast ▸ h.mirrors.last_eq⟩,
    houtside.trans h.outside, ?_, h.hardState, h.savedCommit⟩
  · rw [hbase, happlied]
    exact h.ordered.base_le
  · rw [happlied, hcommit]
    exact h.ordered.applied_le
  · rw [hcommit, hlast]
    exact h.ordered.commit_le
  · rw [hlog, hbase]
    exact h.mirrors.log_eq
  · rw [hdurable, hlast]
    exact h.durable_le

theorem Appended.logged {saved : Disk} (h : InStep n d) (happended : Appended n m d saved) :
    InStep (logged m m.lastLogIndex) saved := by
  have houtside := happended.outside
  simp only [outsideLog, Node.ledger, Ledger.mk.injEq] at houtside
  obtain ⟨hterm, hvote, -, -, -, -, -, -, hcommit, hdurableTerm, hdurableVote, hdurableCommit,
    hhard, hplog, hpcommit, hpsnapshot, -⟩ := houtside
  have hordered := happended.ordered
  refine
    { ordered := ⟨⟨hordered.contiguous.numbered, hordered.contiguous.lastIndex,
        hordered.contiguous.lastTerm, hordered.contiguous.start⟩, hordered.base_le,
        hordered.applied_le, hordered.commit_le⟩
      mirrors := ⟨happended.mirrors.base_le, happended.mirrors.log_eq, happended.mirrors.last_eq⟩
      commit_eq := happended.savedCommit.trans (h.commit_eq.trans hcommit.symm)
      hardState := ?_
      durableTerm := hdurableTerm.trans (h.durableTerm.trans hterm.symm)
      durableVote := hdurableVote.trans (h.durableVote.trans hvote.symm)
      durableCommit := hdurableCommit.trans (h.durableCommit.trans hcommit.symm)
      durableLog := max_eq_right happended.durable_le
      noHardState := hhard.trans h.noHardState
      noLog := hplog.trans h.noLog
      noCommit := hpcommit.trans h.noCommit
      noSnapshot := hpsnapshot.trans h.noSnapshot }
  rw [happended.hardState, h.hardState]
  exact congrArg₂ HardState.mk hterm.symm hvote.symm

theorem InStep.appends (h : InStep n d) {truncateFrom : Nat} {entries : List LogEntry}
    (hne : entries ≠ [])
    (hcut : truncateFrom = 0 ∨ n.commitIndex < truncateFrom ∧ truncateFrom ≤ n.lastLogIndex)
    (hledger : m.ledger = ((cutBefore n truncateFrom).appendEntries entries).ledger)
    (happlied : m.lastApplied = n.lastApplied) {pending : PendingLogPersistence}
    (hfrom : pending.truncateFrom = truncateFrom) (hlast : pending.lastIndex = m.lastLogIndex)
    (hnext : ∀ saved, InStep (logged m m.lastLogIndex) saved →
      Steady fuel (afterLog (logged m m.lastLogIndex) pending).1 saved
        (afterLog (logged m m.lastLogIndex) pending).2) :
    Steady (fuel + 1) (m.persistLog entries pending).1 d (m.persistLog entries pending).2 := by
  have hcutApplied : (cutBefore n truncateFrom).lastApplied = n.lastApplied := by
    unfold cutBefore
    split <;> rfl
  have happended : ∀ saved, Disk.saveAll d
      ((if pending.truncateFrom ≠ 0 then [.truncation pending.truncateFrom] else []) ++
        [.entries entries]) = some saved → Appended n m d saved := by
    intro saved hsaved
    rw [hfrom] at hsaved
    obtain ⟨cutDisk, hcutDisk, hcutCore⟩ := h.cut hcut hsaved
    exact (hcutCore.appendEntries hne hcutDisk).of_ledger hledger (happlied.trans hcutApplied.symm)
  have hnone : m.pendingLog = fun _ => none := by
    have hcutNone : (cutBefore n truncateFrom).pendingLog = n.pendingLog := by
      unfold cutBefore
      split <;> rfl
    exact ((congrArg Ledger.pendingLog hledger :).trans hcutNone).trans h.noLog
  have hstep := step_logEntriesPersisted m entries pending hnone
  refine .save rfl (fun saved hsaved => ?_) fun saved hsaved => ?_
  · have hm := happended saved hsaved
    have houtside := hm.outside
    simp only [outsideLog, Node.ledger, Ledger.mk.injEq] at houtside
    obtain ⟨-, -, -, -, -, -, -, -, hcommit, -, -, hdurableCommit, -, -, hpcommit, -⟩ := houtside
    change (m.persistLog entries pending).1.InRange
    refine (show (m.persistLog entries pending).1.Ordered from ⟨⟨hm.ordered.contiguous.numbered,
      hm.ordered.contiguous.lastIndex, hm.ordered.contiguous.lastTerm,
      hm.ordered.contiguous.start⟩, hm.ordered.base_le, hm.ordered.applied_le,
      hm.ordered.commit_le⟩).inRange ?_ ?_
    · change m.durableCommitIndex ≤ m.commitIndex
      rw [hdurableCommit, h.durableCommit, hcommit]
    · intro id waiting hsome
      change m.pendingCommit id = some waiting at hsome
      rw [hpcommit, h.noCommit] at hsome
      cases hsome
  · change Steady fuel ((m.persistLog entries pending).1.step _).1 saved
      ([] ++ ((m.persistLog entries pending).1.step _).2)
    rw [hstep, hlast, List.nil_append]
    exact hnext saved (Appended.logged h (happended saved hsaved))

theorem InStep.afterLeader (h : InStep n d) {pending : PendingLogPersistence}
    (hpurpose : pending.purpose = .persistLeaderEntry) :
    Steady fuel (afterLog n pending).1 d (afterLog n pending).2 := by
  unfold afterLog
  rw [hpurpose]
  dsimp only
  split
  · exact .done h
  · exact h.neutral (Node.ledger_sendAppendEntries 0) (Node.lastApplied_sendAppendEntries 0)
      (neutral_sendAppendEntries n 0)

theorem InStep.parked_success (n : Node) (dest : NodeID) (requestID : Nat) (readID : ReadID) :
    ∀ action ∈ n.appendEntriesResponse dest requestID true n.lastLogIndex 0 0 readID,
      Parked n action := by
  intro action haction
  obtain rfl := List.mem_singleton.mp haction
  refine ⟨rfl, fun m d hm hterm hlast _ => ⟨?_, ?_, fun index hlt _ => ?_⟩⟩
  · rw [hm.hardState]
    exact hterm
  · rw [hm.mirrors.last_eq, hlast]
  · exact hm.mirrors.entryAt_eq hlt

theorem InStep.afterFollower (h : InStep n d) {pending : PendingLogPersistence}
    (hpurpose : pending.purpose = .persistFollowerAppend)
    (hlast : pending.lastIndex = n.lastLogIndex) :
    Steady (fuel + 1) (afterLog n pending).1 d (afterLog n pending).2 := by
  unfold afterLog
  rw [hpurpose]
  dsimp only
  split
  · exact .done h
  · rw [hlast]
    exact h.advances (InStep.parked_success n _ _ _)

end QuorumKV.Runtime
