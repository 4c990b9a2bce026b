import QuorumKV.Cluster.Incarnation

/-!
# What the WAL and a Follower take

The WAL refuses a core only a Snapshot that a local compaction has overtaken,
and a Follower refuses its Leader inside the committed log only what lies below
its own compacted base.
-/

namespace QuorumKV.Cluster

open Raft QuorumKV.Runtime Session Foundation

/-! ## The WAL -/

section Taking

variable {config : Config} {prompt : Prop} {σ : Ideal} {ρ : Rounds} {trace : List Observation}
  {id : NodeID} {disk : Disk} {files : List Snapshot.State} {p : Process} {event : Event}
  {waiter : Option Waiter}

theorem Prompted.taken (h : Prompted config True prompt σ ρ trace id disk files p event waiter)
    (hposition : ∀ index term, installs p.core event = some (index, term) →
      disk.snapshotIndex ≤ index) :
    ∃ progress σ', Runtime.step p.core disk event = .completed progress ∧ Acts config id σ σ' ∧
      Completes config True id files ρ event σ disk p.core σ' progress.disk progress.core
        progress.emitted := by
  obtain ⟨σ₀, hbegins, hfinishes⟩ := h.achieves
  have hrefl : Acts config id σ₀ σ₀ := Acts.refl hbegins.acts.valid hbegins.acts.tidy
  cases houtcome : Runtime.step p.core disk event with
  | completed progress =>
      rw [houtcome] at hfinishes
      obtain ⟨later, σ₂, σ₃, -, hpersists, hacts, hcompletes⟩ := hfinishes
      exact ⟨progress, σ₃, rfl, hbegins.acts.trans ((hpersists.acts hrefl).trans hacts), hcompletes⟩
  | exhausted =>
      rw [houtcome] at hfinishes
      exact hfinishes.elim
  | refused progress =>
      rw [houtcome] at hfinishes
      obtain ⟨⟨index, term, hinstalls, hrefused⟩, -⟩ := hfinishes
      have hle := hposition index term hinstalls
      have hlt := hrefused trivial
      omega

end Taking

/-- The WAL takes all that a core asks of it, up to a Snapshot it has compacted past. -/
theorem wal_accepts (config : Config) (c : Cluster) (command : Command)
    (h : Run config genuine {} c) (hgenuine : genuine c command) (id : NodeID) (core : Node)
    (event : Event) (hstepped : stepped config c command = some (id, core, event))
    (hposition : ∀ index term, installs core event = some (index, term) →
      (c.servers id).disk.snapshotIndex ≤ index) :
    ∃ progress, Runtime.step core (c.servers id).disk event = .completed progress := by
  obtain ⟨σ, ρ, hexplains⟩ := h.explained fun c command => meets_genuine
  obtain ⟨ρ', p, saved, waiter, rfl, -, hprompted⟩ :=
    hexplains.prompted (fun _ => hgenuine) hstepped
  obtain ⟨progress, σ', hstep, -⟩ := hprompted.taken hposition
  exact ⟨progress, hstep⟩

theorem wal_accepts_snapshot : ∃ c id core event position progress, Run threeNodes genuine {} c ∧
    stepped threeNodes c (deliver 21) = some (id, core, event) ∧
    installs core event = some position ∧
    Runtime.step core (c.servers id).disk event = .completed progress := by
  obtain ⟨c, hrun, hgenuine, ⟨id, core, event⟩, hstepped, position, hinstalls, hle⟩ :
      ∃ c, Run threeNodes genuine {} c ∧ genuine c (deliver 21) ∧
        ∃ found ∈ stepped threeNodes c (deliver 21), ∃ position ∈ installs found.2.1 found.2.2,
          (c.servers found.1).disk.snapshotIndex ≤ position.1 :=
    Run.exists_of_follow lagging (by decide +kernel)
  obtain ⟨progress, hcompleted⟩ := wal_accepts threeNodes c _ hrun hgenuine id core event hstepped
    fun index term hposition => by
      obtain rfl := Option.some.inj (hinstalls.symm.trans hposition)
      exact hle
  exact ⟨c, id, core, event, position, progress, hrun, hstepped, hinstalls, hcompleted⟩

def refuses : Outcome → Bool
  | .refused _ => true
  | _ => false

theorem refuses_iff {outcome : Outcome} :
    refuses outcome = true ↔ ∃ progress, outcome = .refused progress := by
  cases outcome <;> simp [refuses]

/-- A Snapshot that arrives after the WAL was compacted past it is refused. -/
theorem wal_refuses_snapshot : ∃ c id core event progress, Run threeNodes genuine {} c ∧
    genuine c (deliver 21) ∧ stepped threeNodes c (deliver 21) = some (id, core, event) ∧
    Runtime.step core (c.servers id).disk event = .refused progress := by
  obtain ⟨c, hrun, hgenuine, ⟨id, core, event⟩, hstepped, hrefused⟩ :
      ∃ c, Run threeNodes genuine {} c ∧ genuine c (deliver 21) ∧
        ∃ found ∈ stepped threeNodes c (deliver 21),
          refuses (Runtime.step found.2.1 (c.servers found.1).disk found.2.2) = true :=
    Run.exists_of_follow (lagging ++ [.capture nodeC, .advanceCapture nodeC,
      .advanceCapture nodeC]) (by decide +kernel)
  obtain ⟨progress, hstep⟩ := refuses_iff.mp hrefused
  exact ⟨c, id, core, event, progress, hrun, hgenuine, hstepped, hstep⟩

/-! ## How an accepted request ends -/

def Ends (action : Action) (term : Nat) : Outcome → Prop
  | .completed progress => action ∈ progress.emitted ∧ progress.core.term = term
  | _ => True

def acceptance (n : Node) (r : AppendEntries) (matchIndex : Nat) : Action :=
  .sendAppendEntriesResponse r.sender
    ⟨n.id, n.term, r.requestID, true, matchIndex, 0, 0, r.readID⟩

section Ending

variable {action : Action} {progress : Progress} {fuel : Nat} {n : Node}
  {after : List Action} {r : AppendEntries}

theorem ends_quiet {actions : List Action} {term : Nat} (hquiet : Quiet actions)
    (hmem : action ∈ actions) (hterm : progress.core.term = term) :
    Ends action term (drain fuel progress actions) := by
  rw [drain_all_quiet _ _ hquiet]
  exact ⟨List.mem_append_right _ hmem, hterm⟩

theorem ends_completion {head : Action} {writes : List Write} {completion : Event} {term : Nat}
    (hhead : persist head = some (writes, completion))
    (hnext : ∀ progress', progress'.core = (progress.core.step completion).1 →
      Ends action term (drain fuel progress' (progress.core.step completion).2)) :
    Ends action term (drain (fuel + 1) progress [head]) := by
  simp only [drain, drainWith, hhead]
  have hcore := (progress.save_core writes).1
  split
  · trivial
  next hsave =>
    rw [hsave] at hcore
    rw [hcore]
    exact hnext _ rfl

theorem applyThrough_term (n : Node) (index : Nat) : (n.applyThrough index).1.term = n.term := by
  unfold Node.applyThrough
  split
  · rfl
  · exact (applyLoop_frame _ n).2.1

theorem applyThrough_quiet (n : Node) (index : Nat) (hquiet : Quiet after) :
    Quiet ((n.applyThrough index).2 ++ after) := by
  intro action hmem
  rcases List.mem_append.mp hmem with hmem | hmem
  · exact quiet_of_applying (applyThrough_applying n index) action hmem
  · exact hquiet action hmem

theorem ends_advanceFollowerCommit (hquiet : Quiet after) (hmem : action ∈ after)
    {leaderCommit : Nat} (hcore : progress.core = (n.advanceFollowerCommit leaderCommit after).1) :
    Ends action n.term
      (drain (fuel + 1) progress (n.advanceFollowerCommit leaderCommit after).2) := by
  unfold Node.advanceFollowerCommit at hcore ⊢
  dsimp only at hcore ⊢
  split at hcore
  next hadvances =>
    rw [if_pos hadvances]
    obtain ⟨m, hterm, hstep⟩ : ∃ m : Node, m.term = n.term ∧
        progress.core.step (.commitIndexPersisted (n.nextCommitPersistence + 1)) =
          ((m.applyThrough (min leaderCommit n.lastLogIndex)).1,
            (m.applyThrough (min leaderCommit n.lastLogIndex)).2 ++ after) := by
      refine ⟨?node, ?term, ?step⟩
      case step =>
        rw [hcore]
        simp only [Node.step, Node.commitIndexPersisted, Node.persistCommit, Node.completeCommit,
          Function.update_self]
        rfl
      case term => rfl
    refine ends_completion rfl fun progress' hcore' => ?_
    rw [hstep] at hcore' ⊢
    refine ends_quiet (applyThrough_quiet m _ hquiet) (List.mem_append_right _ hmem) ?_
    rw [hcore', applyThrough_term, hterm]
  next hstays =>
    rw [if_neg hstays]
    refine ends_quiet (applyThrough_quiet n _ hquiet) (List.mem_append_right _ hmem) ?_
    rw [hcore, applyThrough_term]

theorem ends_persistLog {truncateFrom index : Nat} {entries : List LogEntry}
    (hterm : n.term = r.term) (hrole : n.role = .follower) (hleader : n.leaderID = r.sender)
    (hcore : progress.core = (n.persistLog entries (awaiting r truncateFrom index)).1) :
    Ends (acceptance n r index) n.term (drain (fuel + 2) progress
      (n.persistLog entries (awaiting r truncateFrom index)).2) := by
  refine ends_completion rfl fun progress' hcore' => ?_
  obtain ⟨m, hid, hsame, hstep⟩ : ∃ m : Node, m.id = n.id ∧ m.term = n.term ∧
      progress.core.step (.logEntriesPersisted (n.nextLogPersistence + 1)) =
        m.advanceFollowerCommit r.leaderCommit
          (m.appendEntriesResponse r.sender r.requestID true index 0 0 r.readID) := by
    have hcurrent : ¬ (n.term ≠ r.term ∨ n.role ≠ .follower ∨ n.leaderID ≠ r.sender) := by
      simp [hterm, hrole, hleader]
    refine ⟨?node, ?id, ?term, ?step⟩
    case step =>
      rw [hcore]
      simp only [Node.step, Node.logEntriesPersisted, Node.persistLog, Function.update_self,
        Node.completeLog, awaiting]
      exact if_neg hcurrent
    case id => rfl
    case term => rfl
  rw [hstep] at hcore' ⊢
  rw [← hsame]
  refine ends_advanceFollowerCommit (by simp [Quiet, Node.appendEntriesResponse, persist]) ?_ hcore'
  simp [acceptance, Node.appendEntriesResponse, hid, hsame]

theorem appendEntries_lastIndex {entries : List LogEntry} {want offset : Nat}
    (hindex : ∀ k e, entries[k]? = some e → e.index = want + k) (hlt : offset < entries.length) :
    (n.appendEntries (entries.drop offset)).lastLogIndex + 1 = want + entries.length := by
  have hne : entries.drop offset ≠ [] := by
    rw [Ne, List.drop_eq_nil_iff]
    omega
  have hlast : entries[entries.length - 1]? = some entries[entries.length - 1] :=
    List.getElem?_eq_getElem (by omega)
  have hnumber := hindex _ _ hlast
  have hwhole : (n.log ++ entries.drop offset).getLast? = some entries[entries.length - 1] := by
    rw [List.getLast?_append_of_ne_nil _ hne, List.getLast?_drop, if_neg (Nat.not_le.mpr hlt),
      List.getLast?_eq_getElem?, hlast]
  simp only [Node.appendEntries, hwhole, Option.elim_some]
  omega

theorem ends_acceptEntries (hterm : n.term = r.term) (hrole : n.role = .follower)
    (hleader : n.leaderID = r.sender) (hdurable : n.durableLogIndex = n.lastLogIndex)
    (hindex : ∀ k e, r.entries[k]? = some e → e.index = r.prevLogIndex + 1 + k)
    (hprev : r.prevLogIndex ≤ n.lastLogIndex) {newEntries : List LogEntry} {truncateFrom : Nat}
    (hscan : n.Scan (r.prevLogIndex + 1) r.entries (some (newEntries, truncateFrom)))
    (hcore : progress.core = (n.acceptEntries r newEntries truncateFrom).1) :
    ∃ index, r.prevLogIndex + r.entries.length ≤ index ∧ Ends (acceptance n r index) n.term
      (drain (fuel + 2) progress (n.acceptEntries r newEntries truncateFrom).2) := by
  have happend : ∀ (m : Node) offset, m.term = n.term → m.id = n.id → m.role = n.role →
      m.leaderID = n.leaderID → offset < r.entries.length →
      progress.core = ((m.appendEntries (r.entries.drop offset)).persistLog
        (r.entries.drop offset) (awaiting r truncateFrom
          (m.appendEntries (r.entries.drop offset)).lastLogIndex)).1 →
      ∃ index, r.prevLogIndex + r.entries.length ≤ index ∧ Ends (acceptance n r index) n.term
        (drain (fuel + 2) progress ((m.appendEntries (r.entries.drop offset)).persistLog
          (r.entries.drop offset) (awaiting r truncateFrom
            (m.appendEntries (r.entries.drop offset)).lastLogIndex)).2) := by
    intro m offset hmterm hmid hmrole hmleader hlt hcore
    have hlast := appendEntries_lastIndex (n := m) hindex hlt
    refine ⟨(m.appendEntries (r.entries.drop offset)).lastLogIndex, by omega, ?_⟩
    have haccept : ∀ index, acceptance n r index =
        acceptance (m.appendEntries (r.entries.drop offset)) r index := by
      intro index
      simp [acceptance, Node.appendEntries, hmid, hmterm]
    rw [haccept, ← hmterm]
    exact ends_persistLog (n := m.appendEntries (r.entries.drop offset)) (hmterm.trans hterm)
      (hmrole.trans hrole) (hmleader.trans hleader) hcore
  cases hscan with
  | held agree =>
      have haccept : n.acceptEntries r [] 0 = n.advanceFollowerCommit r.leaderCommit
          (n.appendEntriesResponse r.sender r.requestID true n.lastLogIndex 0 0 r.readID) := by
        rw [Node.acceptEntries, if_neg (by simp), if_neg (by omega)]
      rw [haccept] at hcore ⊢
      refine ⟨n.lastLogIndex, ?_, ends_advanceFollowerCommit
        (by simp [Quiet, Node.appendEntriesResponse, persist])
        (by simp [acceptance, Node.appendEntriesResponse]) hcore⟩
      rcases Nat.eq_zero_or_pos r.entries.length with hnone | hsome
      · omega
      · have hlast := (agree (r.entries.length - 1) _
          (List.getElem?_eq_getElem (by omega))).1
        omega
  | conflict offset entry found differs inside uncommitted agree =>
      have hlt := (List.getElem?_eq_some_iff.mp found).1
      have hne : r.entries.drop offset ≠ [] := by
        rw [Ne, List.drop_eq_nil_iff]
        omega
      rw [Node.acceptEntries, if_pos hne, if_pos (by omega)] at hcore ⊢
      exact happend _ offset rfl rfl rfl rfl hlt hcore
  | beyond offset within next agree =>
      have hne : r.entries.drop offset ≠ [] := by
        rw [Ne, List.drop_eq_nil_iff]
        omega
      rw [Node.acceptEntries, if_pos hne, if_neg (by simp)] at hcore ⊢
      exact happend _ offset rfl rfl rfl rfl within hcore

end Ending

/-! ## Appends inside the committed log -/

def Accepts (core : Node) (disk : Disk) (r : AppendEntries) : Prop :=
  ∃ progress index log, Runtime.step core disk (.appendEntries r) = .completed progress ∧
    acceptance core r index ∈ progress.emitted ∧ r.prevLogIndex + r.entries.length ≤ index ∧
    progress.core.Holds log ∧ (log.drop r.prevLogIndex).take r.entries.length = r.entries

/-- The request does not begin below the compacted base of a core. -/
def Reaches (core : Node) (r : AppendEntries) : Prop :=
  core.logBaseIndex ≤ r.prevLogIndex ∨
    (r.prevLogIndex = 0 ∧ (core.logBaseIndex ≤ 1 ∨ r.entries = []))

section Appending

variable {config : Config} {prompt : Prop} {σ : Ideal} {ρ : Rounds} {trace : List Observation}
  {id : NodeID} {disk : Disk} {files : List Snapshot.State} {p : Process} {r : AppendEntries}
  {waiter : Option Waiter} {n : Node}

theorem step_appendEntries (hterm : n.term = r.term) :
    n.step (.appendEntries r) =
      (((n.recognizeLeader r.term r.sender).answerEntries r).1,
        .resetElectionTimer :: ((n.recognizeLeader r.term r.sender).answerEntries r).2) := by
  simp only [Node.step, Node.handleAppendEntries, hterm, lt_irrefl, if_false, decide_false,
    Node.afterTermChange, Bool.false_eq_true]

theorem recognizeLeader_body (hterm : n.term = r.term) :
    body (n.recognizeLeader r.term r.sender) = body n ∧
      (n.recognizeLeader r.term r.sender).role = .follower ∧
      (n.recognizeLeader r.term r.sender).leaderID = r.sender := by
  have hsame : ¬ r.term > n.term := by omega
  unfold Node.recognizeLeader
  rw [if_neg hsame]
  exact ⟨rfl, rfl, rfl⟩

/-- What a Follower has committed has the terms of its Leader's log. -/
theorem Prompted.committed_terms
    (h : Prompted config True prompt σ ρ trace id disk files p (.appendEntries r) waiter)
    (hterm : p.core.term = r.term) {index : Nat} (hle : index ≤ p.core.commitIndex) :
    termAt LogEntry.term (σ.log id) index = termAt LogEntry.term (σ.llog r.term) index := by
  have hrest := h.serves.rest
  have hknown := h.stored.known trivial
  rw [← hrest.term_eq, hterm, ← hrest.commit_eq] at hknown
  have hfront := hknown.llog config.quorum_inter h.valid.inv
    (by simp [(h.grounded : TrueAppend True σ ρ id r).leads])
  have hcommit := h.stored.commit_le
  rw [← hrest.commit_eq] at hcommit
  rw [← termAt_take hle, termAt_front hfront]
  rw [List.length_take]
  omega

theorem Prompted.matches
    (h : Prompted config True prompt σ ρ trace id disk files p (.appendEntries r) waiter)
    (hterm : p.core.term = r.term) (hprev : r.prevLogIndex ≤ p.core.commitIndex) :
    (p.core.recognizeLeader r.term r.sender).matchesAt r.prevLogIndex r.prevLogTerm = true ↔
      r.prevLogIndex = 0 ∨ p.core.logBaseIndex ≤ r.prevLogIndex := by
  have htrue : TrueAppend True σ ρ id r := h.grounded
  have hbody := (recognizeLeader_body hterm).1
  have hholds := holds_of_body h.serves.rest.holds hbody
  have hbase : (p.core.recognizeLeader r.term r.sender).logBaseIndex = p.core.logBaseIndex :=
    (congrArg Node.logBaseIndex hbody :)
  have hcommit := h.stored.commit_le
  rw [← h.serves.rest.commit_eq] at hcommit
  rw [hholds.matchesAt_iff, htrue.prevTerm, ← h.committed_terms hterm hprev]
  refine ⟨fun hmatches => ?_, fun hreaches => ?_⟩
  · rcases hmatches with hzero | ⟨-, hsame⟩
    · exact .inl hzero.1
    · by_contra hbelow
      rw [not_or, Nat.not_le] at hbelow
      rw [hholds.termAt_below (by omega)] at hsame
      obtain ⟨e, he, heq⟩ := termAt_mem (τ := LogEntry.term) (Nat.pos_of_ne_zero hbelow.1)
        (hprev.trans hcommit)
      have := (h.valid.inv.log_sound id).1.positive e he
      omega
  · rcases hreaches with hzero | hreaches
    · exact .inl ⟨hzero, by rw [hzero]; rfl⟩
    · exact .inr ⟨hprev.trans hcommit, hholds.termAt_eq (hbase.symm ▸ hreaches)⟩

theorem Prompted.scans
    (h : Prompted config True prompt σ ρ trace id disk files p (.appendEntries r) waiter)
    (hterm : p.core.term = r.term) (hprev : r.prevLogIndex ≤ p.core.commitIndex) :
    ∃ result, (p.core.recognizeLeader r.term r.sender).entriesToAppend r.prevLogIndex r.entries =
        result ∧
      (p.core.recognizeLeader r.term r.sender).Scan (r.prevLogIndex + 1) r.entries result ∧
      (result ≠ none ↔ r.entries = [] ∨ p.core.logBaseIndex ≤ r.prevLogIndex + 1) := by
  have htrue : TrueAppend True σ ρ id r := h.grounded
  have hbody := (recognizeLeader_body hterm).1
  have hholds := holds_of_body h.serves.rest.holds hbody
  have hbase : (p.core.recognizeLeader r.term r.sender).logBaseIndex = p.core.logBaseIndex :=
    (congrArg Node.logBaseIndex hbody :)
  have hcommitted : (p.core.recognizeLeader r.term r.sender).commitIndex = p.core.commitIndex :=
    (congrArg Node.commitIndex hbody :)
  have hcommit := h.stored.commit_le
  rw [← h.serves.rest.commit_eq] at hcommit
  generalize p.core.recognizeLeader r.term r.sender = m at *
  have hscan := m.entriesFrom_scan (r.prevLogIndex + 1) r.entries
    (fun k e hentry => (htrue.entry h.tidy hentry).1) (by rw [hholds.lastIndex]; omega)
  refine ⟨_, rfl, hscan, fun hsome => ?_, fun hreaches => ?_⟩
  · by_contra hbelow
    rw [not_or, Nat.not_le] at hbelow
    obtain ⟨entry, rest, hentries⟩ := List.exists_cons_of_ne_nil hbelow.1
    have hfound : r.entries[0]? = some entry := by rw [hentries]; rfl
    obtain ⟨hindex, hinside, hsame⟩ := htrue.entry h.tidy hfound
    have hle := h.serves.rest.base_le.trans h.serves.rest.applied_le
    -- The first entry is committed, and its term is gone with the compacted log.
    have hpositive : 0 < entry.term := by
      obtain ⟨e, he, heq⟩ := termAt_mem (τ := LogEntry.term) (Nat.succ_pos _) hinside
      rw [← hsame, heq]
      exact (h.valid.inv.llog_sound r.term).1.positive e he
    refine hsome ?_
    rw [Node.entriesToAppend, hentries, Node.entriesFrom, if_neg (by omega),
      if_pos (by rw [hholds.lastIndex]; omega),
      if_pos (by rw [hindex, hholds.termAt_below (by omega)]; omega), if_pos (by omega)]
  · rw [Node.entriesToAppend]
    generalize m.entriesFrom (r.prevLogIndex + 1) r.entries = result at hscan
    cases hscan with
    | refused offset entry found differs inside committed agree =>
        obtain ⟨-, -, hsame⟩ := htrue.entry h.tidy found
        rcases hreaches with hnone | hreaches
        · simp [hnone] at found
        · rw [hholds.termAt_eq (by omega), h.committed_terms hterm (by omega), hsame] at differs
          exact absurd rfl differs
    | _ => simp

theorem Prompted.reaches
    (h : Prompted config True prompt σ ρ trace id disk files p (.appendEntries r) waiter)
    (hterm : p.core.term = r.term) (hprev : r.prevLogIndex ≤ p.core.commitIndex)
    (hreaches : Reaches p.core r) :
    ∃ newEntries truncateFrom,
      (p.core.recognizeLeader r.term r.sender).answerEntries r =
        (p.core.recognizeLeader r.term r.sender).acceptEntries r newEntries truncateFrom ∧
      (p.core.recognizeLeader r.term r.sender).Scan (r.prevLogIndex + 1) r.entries
        (some (newEntries, truncateFrom)) := by
  obtain ⟨result, hresult, hscan, hsome⟩ := h.scans hterm hprev
  have hmatches := (h.matches hterm hprev).mpr (by unfold Reaches at hreaches; tauto)
  have hheld : r.entries = [] ∨ p.core.logBaseIndex ≤ r.prevLogIndex + 1 := by
    rcases hreaches with hle | ⟨hzero, hle | hnone⟩
    · exact .inr (by omega)
    · exact .inr (by omega)
    · exact .inl hnone
  obtain ⟨accepted, rfl⟩ := Option.ne_none_iff_exists'.mp (hsome.mpr hheld)
  refine ⟨accepted.1, accepted.2, ?_, hscan⟩
  simp only [Node.answerEntries, hmatches, hresult, Bool.true_eq_false, if_false]

theorem Prompted.refuses
    (h : Prompted config True prompt σ ρ trace id disk files p (.appendEntries r) waiter)
    (hterm : p.core.term = r.term) (hprev : r.prevLogIndex ≤ p.core.commitIndex)
    (hreaches : ¬ Reaches p.core r) :
    ∃ index, (p.core.recognizeLeader r.term r.sender).answerEntries r =
      (p.core.recognizeLeader r.term r.sender,
        (p.core.recognizeLeader r.term r.sender).rejectEntries r index) := by
  obtain ⟨result, hresult, hscan, hsome⟩ := h.scans hterm hprev
  have hmatches := h.matches hterm hprev
  unfold Reaches at hreaches
  unfold Node.answerEntries
  split
  · exact ⟨_, rfl⟩
  next hmatched =>
    rw [Bool.not_eq_false, hmatches] at hmatched
    rw [hresult]
    have hnone : result = none := by
      by_contra hne
      rcases hsome.mp hne with hnone | hle
      · tauto
      · rcases hmatched with hzero | hmatched
        · exact hreaches (.inr ⟨hzero, .inl (by omega)⟩)
        · exact hreaches (.inl hmatched)
    rw [hnone]
    exact ⟨_, rfl⟩

theorem Prompted.accepted
    (h : Prompted config True prompt σ ρ trace id disk files p (.appendEntries r) waiter)
    (hterm : p.core.term = r.term) (hprev : r.prevLogIndex ≤ p.core.commitIndex)
    (hreaches : Reaches p.core r) :
    ∃ index, r.prevLogIndex + r.entries.length ≤ index ∧
      Ends (acceptance p.core r index) p.core.term
        (Runtime.step p.core disk (.appendEntries r)) := by
  have htrue : TrueAppend True σ ρ id r := h.grounded
  obtain ⟨newEntries, truncateFrom, hanswer, hscan⟩ := h.reaches hterm hprev hreaches
  obtain ⟨hbody, hrole, hleader⟩ := recognizeLeader_body hterm
  have hsame : (p.core.recognizeLeader r.term r.sender).term = p.core.term :=
    (congrArg Node.term hbody :)
  have hid : (p.core.recognizeLeader r.term r.sender).id = p.core.id :=
    (congrArg Node.id hbody :)
  have hlast : (p.core.recognizeLeader r.term r.sender).lastLogIndex = p.core.lastLogIndex :=
    (congrArg Node.lastLogIndex hbody :)
  have hdurable := (congrArg Node.durableLogIndex hbody :).trans
    (h.serves.rest.durableLog.trans hlast.symm)
  have hcommit := h.stored.commit_le
  rw [← h.serves.rest.commit_eq, ← h.serves.rest.holds.lastIndex, ← hlast] at hcommit
  have haccept : ∀ index, acceptance p.core r index =
      acceptance (p.core.recognizeLeader r.term r.sender) r index := by
    intro index
    simp only [acceptance, hsame, hid]
  simp only [haccept]
  rw [Runtime.step, step_appendEntries hterm, hanswer, drain_cons _ _ rfl, ← hsame]
  exact ends_acceptEntries (hsame.trans hterm) hrole hleader hdurable
    (fun k e hentry => (htrue.entry h.tidy hentry).1) (hprev.trans hcommit) hscan rfl

theorem Completes.appended {σ' : Ideal} {progress : Progress} {index : Nat}
    (h : Completes config True id files ρ (.appendEntries r) σ disk n σ' progress.disk
      progress.core progress.emitted)
    (hacts : Acts config id σ σ') (htrue : TrueAppend True σ ρ id r) (hid : n.id = id)
    (hterm : n.term = r.term) (hends : Ends (acceptance n r index) n.term (.completed progress))
    (hle : r.prevLogIndex + r.entries.length ≤ index) :
    ((σ'.log id).drop r.prevLogIndex).take r.entries.length = r.entries := by
  obtain ⟨hmem, hsame⟩ := hends
  have hresponse : TrueResponse config True σ' ρ r.sender _ := h.sends _ hmem
  obtain ⟨hacked, -⟩ := hresponse.matched trivial rfl
  simp only [hid, hterm] at hacked
  have hcurrent : σ'.term id = r.term := by rw [← h.rest.term_eq, hsame, hterm]
  have hheld := hacts.valid.inv.retains id r.term index hacked fun U hU hle _ => by omega
  have hfront : (σ'.llog r.term).take (r.prevLogIndex + r.entries.length) <+: σ'.log id :=
    (take_prefix_take hle).trans hheld
  have htrue' := htrue.mono hacts (.refl σ id ρ)
  have hwindow : ∀ log : List LogEntry, (log.drop r.prevLogIndex).take r.entries.length =
      (log.take (r.prevLogIndex + r.entries.length)).drop r.prevLogIndex := by
    intro log
    rw [List.drop_take, Nat.add_sub_cancel_left]
  have hinside : r.prevLogIndex + r.entries.length ≤
      ((σ'.llog r.term).take (r.prevLogIndex + r.entries.length)).length := by
    rw [List.length_take, min_eq_left htrue'.inside]
  rw [hwindow, take_eq_take hfront hinside, List.take_take, min_self, ← hwindow]
  exact htrue'.entries_eq.symm

/--
A Follower accepts its Leader's append inside the committed log exactly when the
request does not begin below the Follower's compacted base.
-/
theorem appends_accepted (config : Config) (c : Cluster) (command : Command)
    (h : Run config genuine {} c) (hgenuine : genuine c command) (id : NodeID) (core : Node)
    (r : AppendEntries) (hstepped : stepped config c command = some (id, core, .appendEntries r))
    (hterm : core.term = r.term) (hprev : r.prevLogIndex ≤ core.commitIndex) :
    Accepts core (c.servers id).disk r ↔ Reaches core r := by
  obtain ⟨σ, ρ, hexplains⟩ := h.explained fun c command => meets_genuine
  obtain ⟨ρ', p, saved, waiter, rfl, -, hprompted⟩ :=
    hexplains.prompted (fun _ => hgenuine) hstepped
  refine ⟨fun haccepts => ?_, fun hreaches => ?_⟩
  · by_contra hreaches
    obtain ⟨index, hanswer⟩ := hprompted.refuses hterm hprev hreaches
    obtain ⟨progress, matched, log, hcompleted, hmem, -⟩ := haccepts
    rw [Runtime.step, step_appendEntries hterm, hanswer, drain_all_quiet _ _ (by
      simp [Quiet, Node.rejectEntries, Node.appendEntriesResponse, persist])] at hcompleted
    obtain rfl := Outcome.completed.inj hcompleted
    simp [acceptance, Node.rejectEntries, Node.appendEntriesResponse] at hmem
  · obtain ⟨progress, σ', hcompleted, hacts, hcompletes⟩ :=
      hprompted.taken (fun index term hinstalls => by simp [installs] at hinstalls)
    obtain ⟨index, hle, hends⟩ := hprompted.accepted hterm hprev hreaches
    rw [hcompleted] at hends
    exact ⟨progress, index, σ'.log id, hcompleted, hends.1, hle, hcompletes.rest.holds,
      hcompletes.appended hacts hprompted.grounded hprompted.serves.rest.id_eq hterm hends hle⟩

def appended : Event → Option AppendEntries
  | .appendEntries r => some r
  | _ => none

theorem appended_eq {event : Event} (h : appended event = some r) : event = .appendEntries r := by
  cases event <;> simp_all [appended]

theorem appends_accepted_lagging : ∃ c id core r, Run threeNodes genuine {} c ∧
    stepped threeNodes c (deliver 19) = some (id, core, .appendEntries r) ∧ core.term = r.term ∧
    r.entries.length = 3 ∧ Accepts core (c.servers id).disk r := by
  obtain ⟨c, hrun, hgenuine, ⟨id, core, event⟩, hstepped, r, hevent, hterm, hprev, hbase,
      hlength⟩ : ∃ c, Run threeNodes genuine {} c ∧ genuine c (deliver 19) ∧
        ∃ found ∈ stepped threeNodes c (deliver 19), ∃ r ∈ appended found.2.2,
          found.2.1.term = r.term ∧ r.prevLogIndex ≤ found.2.1.commitIndex ∧
            found.2.1.logBaseIndex ≤ r.prevLogIndex ∧ r.entries.length = 3 :=
    Run.exists_of_follow lagging (by decide +kernel)
  obtain rfl := appended_eq hevent
  exact ⟨c, id, core, r, hrun, hstepped, hterm, hlength,
    (appends_accepted threeNodes c _ hrun hgenuine id core r hstepped hterm hprev).mpr
      (.inl hbase)⟩

def acceptsNothing : Outcome → Bool
  | .completed progress => progress.emitted.all fun
      | .sendAppendEntriesResponse _ response => !response.success
      | _ => true
  | _ => true

theorem not_accepts {core : Node} {disk : Disk} {r : AppendEntries}
    (h : acceptsNothing (Runtime.step core disk (.appendEntries r)) = true) :
    ¬ Accepts core disk r := by
  rintro ⟨progress, index, log, hcompleted, hmem, -⟩
  rw [hcompleted] at h
  simpa [acceptance] using List.all_eq_true.mp h _ hmem

/-- A Follower that has compacted its log refuses what its Leader sends from below it. -/
theorem append_below_base_refused : ∃ c id core r, Run threeNodes genuine {} c ∧
    genuine c (deliver 19) ∧
    stepped threeNodes c (deliver 19) = some (id, core, .appendEntries r) ∧
    core.term = r.term ∧ r.prevLogIndex ≤ core.commitIndex ∧
    ¬ Accepts core (c.servers id).disk r := by
  obtain ⟨c, hrun, hgenuine, ⟨id, core, event⟩, hstepped, r, hevent, hterm, hprev, hnothing⟩ :
      ∃ c, Run threeNodes genuine {} c ∧ genuine c (deliver 19) ∧
        ∃ found ∈ stepped threeNodes c (deliver 19), ∃ r ∈ appended found.2.2,
          found.2.1.term = r.term ∧ r.prevLogIndex ≤ found.2.1.commitIndex ∧ acceptsNothing
            (Runtime.step found.2.1 (c.servers found.1).disk (.appendEntries r)) = true :=
    Run.exists_of_follow (lagging ++ [.capture nodeC, .advanceCapture nodeC,
      .advanceCapture nodeC, .advanceCapture nodeC]) (by decide +kernel)
  obtain rfl := appended_eq hevent
  exact ⟨c, id, core, r, hrun, hgenuine, hstepped, hterm, hprev, not_accepts hnothing⟩

end Appending

end QuorumKV.Cluster
