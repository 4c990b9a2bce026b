import QuorumKV.Cluster.Rejection
import QuorumKV.Raft.Signed

/-!
# Safety of the replicated log

What every run of a cluster shows: one Leader for a term, logs that match, one
committed sequence behind all that is applied, and Leaders that have all that
was committed before them.
-/

namespace QuorumKV.Cluster

open Raft QuorumKV.Runtime Session Foundation

/-! ## Elections -/

section Elections

variable {config : Config} {allowed : Cluster → Command → Prop} {c : Cluster}

theorem meets_nothing (c : Cluster) (command : Command) : Meets False False c command :=
  ⟨False.elim, False.elim⟩

/-- At most one node ever enters the role of Leader in a term. -/
theorem one_leader_per_term (config : Config) (allowed : Cluster → Command → Prop) (c : Cluster)
    (h : Run config allowed {} c) (node other : NodeID) (term : Nat)
    (hnode : .becameLeader node term ∈ c.trace) (hother : .becameLeader other term ∈ c.trace) :
    node = other := by
  obtain ⟨σ, ρ, hexplains⟩ := h.explained fun c command _ => meets_nothing c command
  have hlead := hexplains.trace.elected node term hnode
  rw [hexplains.trace.elected other term hother] at hlead
  exact (Option.some.inj hlead).symm

def electing : List Command :=
  [.start nodeA, .start nodeB, .start nodeC, .turn (.electionTimeout nodeA),
    deliver 0, deliver 2, deliver 3, deliver 5]

theorem one_leader_elected : ∃ c, Run threeNodes genuine {} c ∧
    .becameLeader nodeA 1 ∈ c.trace ∧
    ∀ other, .becameLeader other 1 ∈ c.trace → other = nodeA := by
  obtain ⟨c, hrun, hleads⟩ : ∃ c, Run threeNodes genuine {} c ∧ (nodeA, 1) ∈ c.elections :=
    Run.exists_of_follow electing (by decide +kernel)
  have hleads := mem_elections hleads
  exact ⟨c, hrun, hleads, fun other hother =>
    one_leader_per_term threeNodes genuine c hrun other nodeA 1 hother hleads⟩

end Elections

/-! ## Logs -/

/-- What a node holds of its log, in memory or on disk. -/
structure LogView where
  base : Nat
  baseTerm : Nat
  entries : List LogEntry

namespace LogView

def entryAt (view : LogView) (index : Nat) : Option LogEntry :=
  if index ≤ view.base then none else view.entries[index - view.base - 1]?

def termAt (view : LogView) (index : Nat) : Option Nat :=
  if index = view.base then some view.baseTerm else (view.entryAt index).map LogEntry.term

structure Of (view : LogView) (log : List LogEntry) : Prop where
  base_le : view.base ≤ log.length
  baseTerm : view.baseTerm = Foundation.termAt LogEntry.term log view.base
  entries : view.entries = log.drop view.base

variable {view : LogView} {log : List LogEntry}

theorem Of.entryAt (h : view.Of log) {index : Nat} {entry : LogEntry}
    (hentry : view.entryAt index = some entry) : 0 < index ∧ log[index - 1]? = some entry := by
  unfold LogView.entryAt at hentry
  split at hentry
  · simp at hentry
  next hlt =>
    rw [h.entries, List.getElem?_drop] at hentry
    refine ⟨by omega, ?_⟩
    rw [← hentry]
    congr 1
    omega

theorem Of.termAt (h : view.Of log) {index term : Nat} (hterm : view.termAt index = some term) :
    index ≤ log.length ∧ term = Foundation.termAt LogEntry.term log index := by
  unfold LogView.termAt at hterm
  split at hterm
  next hbase =>
    rw [hbase, ← h.baseTerm]
    exact ⟨h.base_le, (Option.some.inj hterm).symm⟩
  · obtain ⟨entry, hentry, rfl⟩ := Option.map_eq_some_iff.mp hterm
    obtain ⟨hpos, hlog⟩ := h.entryAt hentry
    have hlt := (List.getElem?_eq_some_iff.mp hlog).1
    obtain ⟨position, rfl⟩ := Nat.exists_eq_succ_of_ne_zero hpos.ne'
    rw [Nat.succ_sub_one] at hlog
    exact ⟨by omega, by simp [Foundation.termAt, hlog]⟩

end LogView

/-- The log of a running core, or the durable one. -/
def Shows (c : Cluster) (id : NodeID) (view : LogView) : Prop :=
  (∃ p, (c.servers id).process = some p ∧
      view = ⟨p.core.logBaseIndex, p.core.logBaseTerm, p.core.log⟩) ∨
    view = ⟨(c.servers id).disk.snapshotIndex, (c.servers id).disk.snapshotTerm,
      (c.servers id).disk.log⟩

theorem Explains.shows {config : Config} {guarded prompt : Prop} {σ : Ideal} {ρ : Rounds}
    {c : Cluster} (h : Explains config guarded prompt σ ρ c) {id : NodeID} {view : LogView}
    (hshows : Shows c id view) : view.Of (σ.log id) := by
  have hruns := h.servers id
  rcases hshows with ⟨p, hp, rfl⟩ | rfl
  · have hholds := (hruns.serves p hp).rest.holds
    exact ⟨hholds.base_le, hholds.baseTerm, hholds.log_eq⟩
  · exact ⟨hruns.stored.base_le.trans hruns.stored.commit_le, hruns.stored.baseTerm,
      hruns.stored.log_eq⟩

theorem sorted_from_base {log : List LogEntry} (h : Sorted LogEntry.term log) {base : Nat}
    (hbase : base ≤ log.length) :
    (termAt LogEntry.term log base :: (log.drop base).map LogEntry.term).Pairwise (· ≤ ·) := by
  refine List.pairwise_cons.mpr ⟨fun term hmem => ?_, ?_⟩
  · obtain ⟨entry, hentry, rfl⟩ := List.mem_map.mp hmem
    obtain ⟨offset, hoffset, rfl⟩ := List.getElem_of_mem hentry
    rw [List.length_drop] at hoffset
    have hinside : base + offset < log.length := by omega
    rw [List.getElem_drop, ← termAt_getElem (τ := LogEntry.term) hinside]
    exact h.termAt_le (by omega) hinside
  · exact List.pairwise_map.mpr (h.sublist (List.drop_sublist base log))

/-- Logs that agree on the term of a position agree on every entry up to it. -/
theorem logs_match (config : Config) (allowed : Cluster → Command → Prop) (c : Cluster)
    (h : Run config allowed {} c) (id other : NodeID) (view view' : LogView)
    (hview : Shows c id view) (hview' : Shows c other view') :
    (∀ index term, view.termAt index = some term → view'.termAt index = some term →
      ∀ position ≤ index, ∀ entry entry', view.entryAt position = some entry →
        view'.entryAt position = some entry' → entry = entry') ∧
    (view.baseTerm :: view.entries.map LogEntry.term).Pairwise (· ≤ ·) := by
  obtain ⟨σ, ρ, hexplains⟩ := h.explained fun c command _ => meets_nothing c command
  have hof := hexplains.shows hview
  have hof' := hexplains.shows hview'
  have hsound := (hexplains.valid.inv.log_sound id).1
  have hsound' := (hexplains.valid.inv.log_sound other).1
  refine ⟨fun index term hterm hterm' position hle entry entry' hentry hentry' => ?_, ?_⟩
  · obtain ⟨hinside, hterm⟩ := hof.termAt hterm
    obtain ⟨hinside', hterm'⟩ := hof'.termAt hterm'
    obtain ⟨hpos, hentry⟩ := hof.entryAt hentry
    obtain ⟨-, hentry'⟩ := hof'.entryAt hentry'
    have hlt : position - 1 < index := by omega
    have hsame := hsound.matching hsound' hinside hinside' (hterm.symm.trans hterm')
    rw [← List.getElem?_take_of_lt hlt, hsame, List.getElem?_take_of_lt hlt, hentry'] at hentry
    exact (Option.some.inj hentry).symm
  · rw [hof.baseTerm, hof.entries]
    exact sorted_from_base hsound.sorted hof.base_le

/-- A session and a value are committed, the latter up to the last acknowledgement. -/
def writing : List Command :=
  electing ++
    [.turn (.propose nodeA 1 (.session ⟨1, .openSession, sessionNumbered 7⟩)),
      deliver 6, deliver 8, deliver 9, deliver 10,
      .turn (.propose nodeA 2 (.set ⟨2, sessionNumbered 7, 1, [107], [1]⟩)),
      deliver 11, deliver 12, deliver 13]

def viewOf (core : Node) : LogView := ⟨core.logBaseIndex, core.logBaseTerm, core.log⟩

theorem logs_match_replicated : ∃ c view view', Run threeNodes genuine {} c ∧
    Shows c nodeA view ∧ Shows c nodeB view' ∧ view.termAt 3 = some 1 ∧
    view'.termAt 3 = some 1 ∧
    ∃ entry, view.entryAt 2 = some entry ∧ view'.entryAt 2 = some entry := by
  obtain ⟨c, hrun, p, hp, q, hq, hterm, hterm', entry, hentry, entry', hentry', -⟩ :
      ∃ c, Run threeNodes genuine {} c ∧ ∃ p ∈ (c.servers nodeA).process,
        ∃ q ∈ (c.servers nodeB).process, (viewOf p.core).termAt 3 = some 1 ∧
          (viewOf q.core).termAt 3 = some 1 ∧ ∃ entry ∈ (viewOf p.core).entryAt 2,
          ∃ entry' ∈ (viewOf q.core).entryAt 2, True :=
    Run.exists_of_follow writing (by decide +kernel)
  have hview : Shows c nodeA (viewOf p.core) := .inl ⟨p, hp, rfl⟩
  have hview' : Shows c nodeB (viewOf q.core) := .inl ⟨q, hq, rfl⟩
  obtain ⟨hmatch, -⟩ := logs_match threeNodes genuine c hrun nodeA nodeB _ _ hview hview'
  obtain rfl := hmatch 3 1 hterm hterm' 2 (by decide) entry entry' hentry hentry'
  exact ⟨c, _, _, hrun, hview, hview', hterm, hterm', entry, hentry, hentry'⟩

/-! ## The committed sequence -/

/-- One sequence is behind all that is applied, restored, and durably committed. -/
structure Decides (config : Config) (c : Cluster) (log : List LogEntry) : Prop where
  applied : ∀ node entry, .applied node entry ∈ c.trace →
    0 < entry.index ∧ log[entry.index - 1]? = some entry
  restored : ∀ node index term sessions, .restored node index term sessions ∈ c.trace →
    index ≤ log.length ∧ term = termAt LogEntry.term log index ∧
      sessions = config.machine (log.take index)
  committed : ∀ id, (c.servers id).disk.commitIndex ≤ log.length ∧
    ∃ whole, (c.servers id).disk.Backs whole ∧
      whole.take (c.servers id).disk.commitIndex = log.take (c.servers id).disk.commitIndex

section Committed

variable {config : Config} {prompt : Prop} {σ : Ideal} {ρ : Rounds} {c : Cluster}

theorem meets_genuine {c : Cluster} {command : Command} (h : genuine c command) :
    Meets True False c command :=
  ⟨fun _ => h, False.elim⟩

theorem Explains.decides (h : Explains config True prompt σ ρ c) : Decides config c σ.chosen where
  applied _ _ hmem := h.trace.observed trivial _ hmem
  restored _ _ _ _ hmem := h.trace.observed trivial _ hmem
  committed id :=
    have hstored := (h.servers id).stored
    ⟨hstored.commit_le_chosen h.valid.agreed trivial, σ.log id, hstored.backs h.valid h.tidy,
      hstored.commit_chosen h.valid.agreed trivial⟩

/-- Whatever any node applies or restores comes from one committed sequence. -/
theorem applied_agree (config : Config) (c : Cluster) (h : Run config genuine {} c) :
    ∃ log, Decides config c log := by
  obtain ⟨σ, ρ, hexplains⟩ := h.explained fun c command => meets_genuine
  exact ⟨σ.chosen, hexplains.decides⟩

theorem applied_agree_written : ∃ c log, Run threeNodes genuine {} c ∧
    Decides threeNodes c log ∧ ∃ entry, .applied nodeA entry ∈ c.trace ∧ entry.index = 2 ∧
      log[1]? = some entry := by
  obtain ⟨c, hrun, ⟨node, entry⟩, hmem, rfl, hindex⟩ : ∃ c, Run threeNodes genuine {} c ∧
      ∃ shown ∈ c.applications, shown.1 = nodeA ∧ shown.2.index = 2 :=
    Run.exists_of_follow writing (by decide +kernel)
  obtain ⟨log, hdecides⟩ := applied_agree threeNodes c hrun
  refine ⟨c, log, hrun, hdecides, entry, mem_applications hmem, hindex, ?_⟩
  have hlog := (hdecides.applied nodeA entry (mem_applications hmem)).2
  rwa [hindex] at hlog

/-- After a stale rejection two nodes apply entries of different terms at one index. -/
theorem applied_disagree : ∃ c, Run threeNodes anything {} c ∧
    ¬ ∃ log, Decides threeNodes c log := by
  obtain ⟨c, hrun, ⟨⟨node, entry⟩, hmem, -, hindex, hterm⟩, ⟨other, entry'⟩, hmem', -, hindex',
      hterm'⟩ : ∃ c, Run threeNodes anything resent c ∧
        (∃ shown ∈ c.applications, shown.1 = nodeA ∧ shown.2.index = 5 ∧ shown.2.term = 3) ∧
        ∃ shown ∈ c.applications, shown.1 = nodeB ∧ shown.2.index = 5 ∧ shown.2.term = 2 :=
    Run.exists_of_follow closing (by decide +kernel)
  dsimp only at hindex hterm hindex' hterm'
  refine ⟨c, resent_reached.trans hrun, fun ⟨log, hdecides⟩ => ?_⟩
  have hlog := (hdecides.applied node entry (mem_applications hmem)).2
  have hlog' := (hdecides.applied other entry' (mem_applications hmem')).2
  rw [hindex] at hlog
  rw [hindex', hlog] at hlog'
  obtain rfl := Option.some.inj hlog'
  omega

/-! ## Leaders and what was committed -/

/-- A node has a log whose compacted part stands in one of its Snapshots. -/
structure Has (config : Config) (server : Server) (core : Node) (log : List LogEntry) : Prop where
  holds : core.Holds log
  filed : 0 < core.logBaseIndex → ∃ file ∈ server.files,
    file.includedIndex = core.logBaseIndex ∧ file.includedTerm = core.logBaseTerm ∧
      Image config log file

theorem Explains.image (h : Explains config True prompt σ ρ c) {id : NodeID}
    {file : Snapshot.State} (hfile : file ∈ (c.servers id).files)
    (hle : file.includedIndex ≤ (c.servers id).disk.commitIndex) :
    Image config (σ.log id) file := by
  have hstored := (h.servers id).stored
  have hcommitted := hstored.commit_chosen h.valid.agreed trivial
  have hfront : (σ.log id).take file.includedIndex = σ.chosen.take file.includedIndex := by
    rw [← min_eq_left hle, ← List.take_take, hcommitted, List.take_take]
  refine ⟨hle.trans hstored.commit_le, ?_⟩
  rw [hfront, ← termAt_take le_rfl, hfront, termAt_take le_rfl]
  exact (((h.servers id).owned file hfile).2 trivial).2

theorem Explains.has (h : Explains config True prompt σ ρ c) {id : NodeID} {p : Process}
    (hp : (c.servers id).process = some p) : Has config (c.servers id) p.core (σ.log id) := by
  have hrest := ((h.servers id).serves p hp).rest
  refine ⟨hrest.holds, fun hpos => ?_⟩
  obtain ⟨file, hfile, hindex, hterm⟩ := hrest.filed hpos
  refine ⟨file, hfile, hindex, hterm, h.image hfile ?_⟩
  rw [hindex, ← hrest.commit_eq]
  exact hrest.base_le.trans hrest.applied_le

/-- A Leader has all that Leaders of earlier terms committed. -/
theorem leaders_complete (config : Config) (c c₁ c₂ : Cluster) (command : Command)
    (h : Run config genuine {} c) (hgenuine : genuine c command)
    (hstep : c.step config command = some c₁) (hrun : Run config genuine c₁ c₂)
    (id : NodeID) (core : Node) (event : Event)
    (hstepped : stepped config c command = some (id, core, event))
    (hleader : core.role = .leader) (hleads : (core.step event).1.role = .leader)
    (hcommits : core.commitIndex < (core.step event).1.commitIndex)
    (later : NodeID) (p : Process) (hp : (c₂.servers later).process = some p)
    (hrole : p.core.role = .leader) (hterm : core.term < p.core.term) :
    ∃ log whole, Has config (c.servers id) core log ∧
      (core.step event).1.commitIndex ≤ log.length ∧
      Has config (c₂.servers later) p.core whole ∧
      log.take (core.step event).1.commitIndex <+: whole := by
  obtain ⟨σ, ρ, hexplains⟩ := h.explained fun c command => meets_genuine
  obtain ⟨_, _, q, _, _, _, -, -, hq, hprepare, hcore⟩ := stepped_prepared hstepped
  obtain rfl := (prepare_stepped hprepare).core_eq.symm.trans hcore
  obtain ⟨σ₁, ρ₁, hcontinues⟩ := hexplains.step (meets_genuine hgenuine) hstep
  obtain ⟨σ₂, ρ₂, hexplains₂, hextends⟩ :=
    hrun.explained_from (fun c command => meets_genuine) hcontinues.explains
  have hserves := (hexplains.servers id).serves q hq
  have hleads₀ := hserves.leads hleader
  have hleads₂ := ((hexplains₂.servers later).serves p hp).leads hrole
  have hbound := (hcontinues.tells _ _ _ hstepped).commits trivial hleader hleads
  generalize (q.core.step event).1.commitIndex = index at hcommits hbound ⊢
  have hinside : index ≤ (σ.log id).length := by
    rw [← hserves.rest.holds.lastIndex]
    omega
  refine ⟨σ.log id, σ₂.log later, hexplains.has hq, hinside, hexplains₂.has hp, ?_⟩
  -- What the Leader counted is decided in its term, and stays so.
  have hdecided : (σ.log id).take index <+: σ₂.decided q.core.term := by
    rw [hleads₀.holds] at hinside ⊢
    rw [← take_eq_take (hcontinues.history.llog_le _) hinside]
    refine (take_prefix_take ?_).trans (hextends.decided_le q.core.term)
    omega
  rw [hleads₂.holds]
  exact hdecided.trans (hexplains₂.valid.inv.decided_llog config.quorum_inter hterm.le
    (by simp [hleads₂.leads]))

/-- Whether a command makes a Leader commit before another one leads. -/
def commitsBefore (allowed : Cluster → Command → Prop)
    [∀ c command, Decidable (allowed c command)] (command : Command) (rest : List Command)
    (later : NodeID) (test : Node → Nat → Node → Bool) (c : Cluster) : Bool :=
  decide (allowed c command) && (c.step threeNodes command).any fun c₁ =>
    (follow threeNodes allowed c₁ rest).any fun c₂ =>
      (stepped threeNodes c command).any fun found =>
        (c₂.servers later).process.any fun p =>
          let next := (found.2.1.step found.2.2).1
          decide (found.2.1.role = .leader ∧ next.role = .leader ∧
            found.2.1.commitIndex < next.commitIndex ∧ p.core.role = .leader ∧
            found.2.1.term < p.core.term) && test found.2.1 next.commitIndex p.core

def compacting : List Command :=
  writing ++ [deliver 14, .capture nodeA, .advanceCapture nodeA, .advanceCapture nodeA,
    .advanceCapture nodeA]

/-- Both nodes have compacted the committed entries when the next one is replicated. -/
def resuming : List Command :=
  compacting ++
    [.turn (.propose nodeA 3 (.set ⟨3, sessionNumbered 7, 2, [107], [2]⟩)),
      deliver 15, deliver 16, deliver 17, .capture nodeB, .advanceCapture nodeB,
      .advanceCapture nodeB, .advanceCapture nodeB]

def succession : List Command :=
  [.turn (.electionTimeout nodeB), deliver 21, deliver 22, deliver 24, deliver 25]

theorem leaders_complete_succession : ∃ c c₁ c₂ id core event p log whole,
    Run threeNodes genuine {} c ∧ c.step threeNodes (deliver 18) = some c₁ ∧
    Run threeNodes genuine c₁ c₂ ∧
    stepped threeNodes c (deliver 18) = some (id, core, event) ∧
    core.logBaseIndex = 3 ∧ (core.step event).1.commitIndex = 4 ∧
    (c₂.servers nodeB).process = some p ∧ p.core.logBaseIndex = 3 ∧ core.term < p.core.term ∧
    Has threeNodes (c.servers id) core log ∧ Has threeNodes (c₂.servers nodeB) p.core whole ∧
    log.take 4 <+: whole := by
  obtain ⟨c, hrun, htest⟩ : ∃ c, Run threeNodes genuine {} c ∧
      commitsBefore genuine (deliver 18) succession nodeB (fun core index next =>
        decide (index = 4 ∧ core.logBaseIndex = 3 ∧ next.logBaseIndex = 3)) c = true :=
    Run.exists_of_follow resuming (by decide +kernel)
  simp only [commitsBefore, Bool.and_eq_true, Option.any_eq_true, decide_eq_true_eq] at htest
  obtain ⟨hgenuine, c₁, hstep, c₂, hfollow, ⟨id, core, event⟩, hstepped, p, hp,
    ⟨hleader, hleads, hcommits, hrole, hterm⟩, hindex, hbase, hbase'⟩ := htest
  obtain ⟨log, whole, hhas, -, hhas', hfront⟩ := leaders_complete threeNodes c c₁ c₂ _ hrun
    hgenuine hstep (.of_follow hfollow) id core event hstepped hleader hleads hcommits nodeB p hp
    hrole hterm
  rw [hindex] at hfront
  exact ⟨c, c₁, c₂, id, core, event, p, log, whole, hrun, hstep, .of_follow hfollow, hstepped,
    hbase, hindex, hp, hbase', hterm, hhas, hhas', hfront⟩

/-- After a stale rejection a Leader lacks what was committed before it. -/
theorem leaders_incomplete : ∃ c c₁ c₂ command id core event later p,
    Run threeNodes anything {} c ∧ c.step threeNodes command = some c₁ ∧
    Run threeNodes anything c₁ c₂ ∧ stepped threeNodes c command = some (id, core, event) ∧
    core.role = .leader ∧ (core.step event).1.role = .leader ∧
    core.commitIndex < (core.step event).1.commitIndex ∧
    (c₂.servers later).process = some p ∧ p.core.role = .leader ∧ core.term < p.core.term ∧
    ¬ ∃ log whole, Has threeNodes (c.servers id) core log ∧
      (core.step event).1.commitIndex ≤ log.length ∧
      Has threeNodes (c₂.servers later) p.core whole ∧
      log.take (core.step event).1.commitIndex <+: whole := by
  obtain ⟨c, hrun, htest⟩ : ∃ c, Run threeNodes anything resent c ∧
      commitsBefore anything (deliver 56) (closing.drop 2) nodeB (fun core index next =>
        decide (5 ≤ index ∧ core.logBaseIndex = 0 ∧ next.logBaseIndex = 0 ∧
          (core.log[4]?).map LogEntry.term = some 3 ∧
          (next.log[4]?).map LogEntry.term = some 2)) c = true :=
    Run.exists_of_follow [deliver 55] (by decide +kernel)
  simp only [commitsBefore, Bool.and_eq_true, Option.any_eq_true, decide_eq_true_eq] at htest
  obtain ⟨-, c₁, hstep, c₂, hfollow, ⟨id, core, event⟩, hstepped, p, hp,
    ⟨hleader, hleads, hcommits, hrole, hterm⟩, hindex, hbase, hbase', hentry, hentry'⟩ := htest
  dsimp only at hindex hbase hentry
  refine ⟨c, c₁, c₂, deliver 56, id, core, event, nodeB, p, resent_reached.trans hrun, hstep,
    .of_follow hfollow, hstepped, hleader, hleads, hcommits, hp, hrole, hterm, ?_⟩
  rintro ⟨log, whole, hhas, hlength, hhas', hfront⟩
  have hlog : core.log = log := by simpa [hbase] using hhas.holds.log_eq
  have hwhole : p.core.log = whole := by simpa [hbase'] using hhas'.holds.log_eq
  have hsame : whole[4]? = log[4]? := by
    have hlt : 4 < (log.take (core.step event).1.commitIndex).length := by
      rw [List.length_take]
      omega
    rw [List.getElem?_eq_getElem (hlt.trans_le hfront.length_le), ← hfront.getElem hlt,
      List.getElem_take, ← List.getElem?_eq_getElem]
  rw [hwhole, hsame, ← hlog, hentry] at hentry'
  simp at hentry'

/-! ## Snapshot files -/

/-- The position of the Snapshot whose transfer an event makes a Leader go on with. -/
def resumes (core : Node) : Event → Option Nat
  | .installSnapshotResponse r => if core.Resumes r then some r.snapshotIndex else none
  | _ => none

/-- A node that sends its own files, from offsets within them. -/
def sending (config : Config) (σ : Ideal) (id : NodeID) (files : List Snapshot.State) :
    Author where
  id := id
  offers index term offset :=
    Filed files index term ∧ (offset = 0 ∨ Fits config True σ id index offset)

theorem completion_admitted {a : Author} {n : Node} {action : Action} {writes : List Write}
    {completion : Event} (h : persist action = some (writes, completion)) :
    a.Admits n completion := by
  cases action with
  | persistHardState | persistLogEntries | persistCommitIndex | persistSnapshot =>
      cases h
      trivial
  | _ => simp [persist] at h

section Sending

variable {id : NodeID} {trace : List Observation} {disk : Disk} {files : List Snapshot.State}
  {p : Process} {event : Event} {waiter : Option Waiter}

theorem Prompted.signed
    (h : Prompted config True prompt σ ρ trace id disk files p event waiter) :
    p.core.Signed (sending config σ id files) where
  self := h.serves.rest.id_eq
  based hpos := ⟨h.serves.rest.filed hpos, .inl rfl⟩
  hardState := by simp [h.serves.rest.noHardState]
  commit := by simp [h.serves.rest.noCommit]
  snapshot := by simp [h.serves.rest.noSnapshot]

theorem Prompted.admitted
    (h : Prompted config True prompt σ ρ trace id disk files p event waiter)
    (hbase : ∀ index, resumes p.core event = some index → index = p.core.logBaseIndex) :
    (sending config σ id files).Admits p.core event := by
  have hgrounded := h.grounded
  cases event with
  | snapshotCompacted index term => exact hgrounded.elim
  | installSnapshot r => exact fun hsuccess hdone => ⟨hgrounded.2 hsuccess hdone, .inl rfl⟩
  | installSnapshotResponse r =>
      intro hresumes
      have hposition := hbase r.snapshotIndex (if_pos hresumes)
      obtain ⟨hrole, -, hflight, hsuccess, -⟩ := hresumes
      have hpos := ((h.serves.replicates trivial hrole).snapshot r.sender
        (hflight ▸ hgrounded.numbered)).1
      exact ⟨h.serves.rest.filed hpos, .inr (hposition ▸ hgrounded.fits hsuccess)⟩
  | _ => trivial

theorem Prompted.sends (h : Prompted config True prompt σ ρ trace id disk files p event waiter)
    (hbase : ∀ index, resumes p.core event = some index → index = p.core.logBaseIndex) :
    ∀ action ∈ (Runtime.step p.core disk event).emitted, action.By (sending config σ id files) := by
  obtain ⟨hsigned, hactions⟩ := h.signed.step (h.admitted hbase)
  cases hstep : Runtime.step p.core disk event with
  | refused progress => simp [Outcome.emitted]
  | exhausted => simp [Outcome.emitted]
  | completed progress =>
      refine (drain_invariant (fun n action writes completion haction hn => ?_) hstep hsigned
        (by simpa [AllSigned] using hactions)).2
      exact hn.step (completion_admitted haction)

/-- Two files of a node at one position are the same. -/
theorem Owned.eq {file other : Snapshot.State} (h : Owned config True σ id file)
    (h' : Owned config True σ id other) (hindex : file.includedIndex = other.includedIndex) :
    file = other := by
  refine (h.2 trivial).2.trans (Eq.trans ?_ (h'.2 trivial).2.symm)
  rw [h.1, h'.1, hindex]

theorem snapshotChunk_offered (howned : ∀ file ∈ files, Owned config True σ id file)
    {term requestID index snapshotTerm offset : Nat}
    (h : (sending config σ id files).offers index snapshotTerm offset) :
    (snapshotChunk config id files term requestID index snapshotTerm offset).isSome := by
  obtain ⟨⟨file, hfile, hindex, hterm⟩, hoffset⟩ := h
  unfold snapshotChunk
  split
  next hnone =>
    have hother := List.find?_eq_none.mp hnone file hfile
    simp [hindex, hterm] at hother
  next found hfound =>
    have hfits : offset ≤ config.fileLength found := by
      rcases hoffset with rfl | ⟨sent, hsent, hposition, hle⟩
      · exact Nat.zero_le _
      · have hsame := List.find?_some hfound
        rw [Bool.and_eq_true, beq_iff_eq, beq_iff_eq] at hsame
        rwa [(howned found (List.mem_of_find?_eq_some hfound)).eq hsent
          (hsame.1.trans hposition.symm)]
    simp [Nat.not_lt.mpr hfits]

theorem turn_files {c' : Cluster} {selection : Selection} {input : Input} {p' : Process}
    {saved : List Snapshot.State}
    (hstep : c.step config (.turn selection) = some c')
    (hselect : c.select selection = some (id, input))
    (hprocess : (c.servers id).process = some p)
    (hprepare : prepare config id c.trace.length p input = some (.stepped p' saved event waiter)) :
    (c'.servers id).files = saved ++ (c.servers id).files := by
  simp only [Cluster.step, hselect] at hstep
  obtain ⟨turn, hserve, rfl⟩ := Option.map_eq_some_iff.mp hstep
  obtain ⟨q, hq, hserved⟩ := Server.serve_served hserve
  obtain rfl := Option.some.inj (hprocess.symm.trans hq)
  cases hserved with
  | answered prepared => simp [hprepare] at prepared
  | ended prepared | finished prepared =>
      rw [hprepare] at prepared
      cases prepared
      simp [Cluster.after]

end Sending

/--
Every Snapshot file is an image of the committed log, and cores find the one they
need.  What a core asks its files for when it sends a Snapshot is there, unless a
Leader goes on with a transfer after its log has come to begin at another Snapshot.
-/
theorem snapshots_true (config : Config) (c : Cluster) (h : Run config genuine {} c) :
    ∃ log, Decides config c log ∧
      (∀ id, ∀ file ∈ (c.servers id).files, Image config log file) ∧
      (∀ id p, (c.servers id).process = some p → 0 < p.core.logBaseIndex →
        ∃ file ∈ (c.servers id).files, file.includedIndex = p.core.logBaseIndex ∧
          file.includedTerm = p.core.logBaseTerm) ∧
      ∀ selection c' id core event, genuine c (.turn selection) →
        c.step config (.turn selection) = some c' →
        stepped config c (.turn selection) = some (id, core, event) →
        (∀ index, resumes core event = some index → index = core.logBaseIndex) →
        ∀ dest term requestID index snapshotTerm offset,
          .sendInstallSnapshot dest term requestID index snapshotTerm offset ∈
            (Runtime.step core (c.servers id).disk event).emitted →
          (snapshotChunk config id (c'.servers id).files term requestID index snapshotTerm
            offset).isSome := by
  obtain ⟨σ, ρ, hexplains⟩ := h.explained fun c command => meets_genuine
  refine ⟨σ.chosen, hexplains.decides,
    fun id file hfile => ((hexplains.servers id).owned file hfile).2 trivial,
    fun id p hp hpos => ((hexplains.servers id).serves p hp).rest.filed hpos, ?_⟩
  intro selection c' id core event hgenuine hstep hstepped hbase dest term requestID index
    snapshotTerm offset hmem
  obtain ⟨input, p, p', saved, waiter, hselect, hprocess, hprepare, rfl⟩ := turn_prepared hstepped
  obtain ⟨ρ', -, hprompted⟩ := (hexplains.stands id).prepared hprocess
    (hexplains.heard hselect hprocess fun _ => hgenuine) hprepare
  rw [turn_files hstep hselect hprocess hprepare]
  exact snapshotChunk_offered hprompted.owned (hprompted.sends hbase _ hmem)

/-- The Snapshot at index three has two chunks, any other has one. -/
def shrinkingFiles : Config :=
  { threeNodes with fileLength := fun file => if file.includedIndex = 3 then 100000 else 64 }

/-- Node C has answered the first chunk of the Snapshot that node A compacted to. -/
def transferring : List Command :=
  compacting ++ [.turn (.heartbeatTimeout nodeA), deliver 17]

/-- Node A has compacted to a later Snapshot before the answer arrives. -/
def overtaken : List Command :=
  transferring ++
    [.turn (.propose nodeA 3 (.set ⟨3, sessionNumbered 7, 2, [107], [2]⟩)),
      deliver 16, deliver 19, deliver 20, deliver 21, .capture nodeA, .advanceCapture nodeA,
      .advanceCapture nodeA, .advanceCapture nodeA]

/-- Whether the answer makes node A ask its files for the second chunk of a Snapshot. -/
def AsksFor (index : Nat) (test : Cluster → Prop) (c : Cluster) : Prop :=
  genuine c (deliver 18) ∧ ∃ c' ∈ c.step shrinkingFiles (deliver 18),
    ∃ found ∈ stepped shrinkingFiles c (deliver 18), found.1 = nodeA ∧
      found.2.1.logBaseIndex = index ∧ resumes found.2.1 found.2.2 = some 3 ∧
      .sendInstallSnapshot nodeC 1 8 index 1 65536 ∈
        (Runtime.step found.2.1 (c.servers nodeA).disk found.2.2).emitted ∧ test c'

instance (index : Nat) (test : Cluster → Prop) [DecidablePred test] (c : Cluster) :
    Decidable (AsksFor index test c) :=
  inferInstanceAs (Decidable (_ ∧ _))

theorem snapshots_true_compacted : ∃ c c' log core event, Run shrinkingFiles genuine {} c ∧
    Decides shrinkingFiles c log ∧ c.step shrinkingFiles (deliver 18) = some c' ∧
    stepped shrinkingFiles c (deliver 18) = some (nodeA, core, event) ∧ core.logBaseIndex = 3 ∧
    (∃ file ∈ (c.servers nodeA).files, file.includedIndex = 3 ∧
      Image shrinkingFiles log file) ∧
    resumes core event = some 3 ∧
    .sendInstallSnapshot nodeC 1 8 3 1 65536 ∈
      (Runtime.step core (c.servers nodeA).disk event).emitted ∧
    (snapshotChunk shrinkingFiles nodeA (c'.servers nodeA).files 1 8 3 1 65536).isSome := by
  obtain ⟨c, hrun, p, hp, hbase', hgenuine, c', hstep, ⟨id, core, event⟩, hstepped, rfl, hbase,
      hresumes, hsends, -⟩ : ∃ c, Run shrinkingFiles genuine {} c ∧
        ∃ p ∈ (c.servers nodeA).process, p.core.logBaseIndex = 3 ∧
          AsksFor 3 (fun _ => True) c :=
    Run.exists_of_follow transferring (by decide +kernel)
  obtain ⟨log, hdecides, himages, hfiled, hserved⟩ := snapshots_true shrinkingFiles c hrun
  obtain ⟨file, hfile, hindex, -⟩ := hfiled nodeA p hp (by omega)
  refine ⟨c, c', log, core, event, hrun, hdecides, hstep, hstepped, hbase,
    ⟨file, hfile, hindex.trans hbase', himages nodeA file hfile⟩, hresumes, hsends,
    hserved _ c' nodeA core event hgenuine hstep hstepped (fun index hindex => ?_) _ _ _ _ _ _
      hsends⟩
  rw [hresumes] at hindex
  rw [← Option.some.inj hindex, hbase]

/-- A Leader that goes on after it has compacted asks for what the new Snapshot has not. -/
theorem resumed_transfer_unserved : ∃ c c' core event, Run shrinkingFiles genuine {} c ∧
    genuine c (deliver 18) ∧ c.step shrinkingFiles (deliver 18) = some c' ∧
    stepped shrinkingFiles c (deliver 18) = some (nodeA, core, event) ∧
    .sendInstallSnapshot nodeC 1 8 4 1 65536 ∈
      (Runtime.step core (c.servers nodeA).disk event).emitted ∧
    snapshotChunk shrinkingFiles nodeA (c'.servers nodeA).files 1 8 4 1 65536 = none := by
  obtain ⟨c, hrun, hgenuine, c', hstep, ⟨id, core, event⟩, hstepped, rfl, -, -, hsends, hnone⟩ :
      ∃ c, Run shrinkingFiles genuine {} c ∧ AsksFor 4 (fun c' => snapshotChunk shrinkingFiles nodeA
        (c'.servers nodeA).files 1 8 4 1 65536 = none) c :=
    Run.exists_of_follow overtaken (by decide +kernel)
  exact ⟨c, c', core, event, hrun, hgenuine, hstep, hstepped, hsends, hnone⟩

/-- After a stale rejection a Snapshot holds other entries than another node applied. -/
theorem snapshot_of_another_log : ∃ c file entry, Run threeNodes anything {} c ∧
    file ∈ (c.servers nodeA).files ∧ .applied nodeB entry ∈ c.trace ∧
    entry.index = file.includedIndex ∧ entry.term ≠ file.includedTerm ∧
    ¬ ∃ log, Decides threeNodes c log ∧ ∀ id, ∀ file ∈ (c.servers id).files,
      Image threeNodes log file := by
  obtain ⟨c, hrun, file, hfile, ⟨node, entry⟩, hmem, rfl, hindex, hterm⟩ :
      ∃ c, Run threeNodes anything resent c ∧ ∃ file ∈ (c.servers nodeA).files,
        ∃ shown ∈ c.applications, shown.1 = nodeB ∧ shown.2.index = file.includedIndex ∧
          shown.2.term ≠ file.includedTerm :=
    Run.exists_of_follow (closing ++ [.capture nodeA, .advanceCapture nodeA]) (by decide +kernel)
  have hshown := mem_applications hmem
  refine ⟨c, file, entry, resent_reached.trans hrun, hfile, hshown, hindex, hterm, ?_⟩
  rintro ⟨log, hdecides, himages⟩
  obtain ⟨hpos, hlog⟩ := hdecides.applied nodeB entry hshown
  have himage : file.includedTerm = _ := congrArg Snapshot.State.includedTerm
    (himages nodeA file hfile).2
  obtain ⟨position, hposition⟩ := Nat.exists_eq_succ_of_ne_zero hpos.ne'
  rw [hposition, Nat.succ_sub_one] at hlog
  rw [← hindex, hposition] at himage
  simp only [SessionMachine.snapshot, termAt, hlog] at himage
  exact hterm himage.symm

/-! ## What a Leader knows of its peers -/

/-- A log that a disk holds, its compacted part in one of the Snapshots. -/
structure Saves (config : Config) (server : Server) (log : List LogEntry) : Prop where
  backs : server.disk.Backs log
  filed : 0 < server.disk.snapshotIndex → ∃ file ∈ server.files,
    file.includedIndex = server.disk.snapshotIndex ∧
      file.includedTerm = server.disk.snapshotTerm ∧ Image config log file

theorem Explains.saves (h : Explains config True prompt σ ρ c) (id : NodeID) :
    Saves config (c.servers id) (σ.log id) := by
  have hstored := (h.servers id).stored
  refine ⟨hstored.backs h.valid h.tidy, fun hpos => ?_⟩
  obtain ⟨file, hfile, hindex, hterm⟩ := hstored.filed hpos
  exact ⟨file, hfile, hindex, hterm, h.image hfile (hindex ▸ hstored.base_le)⟩

theorem Run.sent {allowed : Cluster → Command → Prop} {c' : Cluster}
    (h : Run config allowed c c') : c.network <+: c'.network := by
  induction h with
  | refl => exact List.prefix_rfl
  | next _ _ stepped ih =>
      refine ih.trans ?_
      cases step_does stepped with
      | upkeep => exact List.prefix_rfl
      | _ => exact List.prefix_append _ _

theorem Run.packet {allowed : Cluster → Command → Prop} {c' : Cluster} {position : Nat}
    {packet : Packet} (h : Run config allowed c c') (hpacket : c.network[position]? = some packet) :
    c'.network[position]? = some packet := by
  obtain ⟨later, hnetwork⟩ := h.sent
  rw [← hnetwork, List.getElem?_append_left (List.getElem?_eq_some_iff.mp hpacket).1, hpacket]

/-- A bound on what a core has committed, or commits once a Leader's entries are durable. -/
structure Within (bound : Nat) (n : Node) : Prop where
  commit_le : n.commitIndex ≤ bound
  log_le : ∀ id pending, n.pendingLog id = some pending → pending.leaderCommit ≤ bound
  noSnapshot : n.pendingSnapshot = fun _ => none

namespace Within

variable {bound : Nat} {n m : Node}

theorem of_ledger (h : Within bound n) (hledger : m.ledger = n.ledger) : Within bound m where
  commit_le := (congrArg Ledger.commitIndex hledger).trans_le h.commit_le
  log_le id pending hpending := by
    have hsame : m.pendingLog = n.pendingLog := congrArg Ledger.pendingLog hledger
    exact h.log_le id pending (hsame ▸ hpending)
  noSnapshot := (congrArg Ledger.pendingSnapshot hledger).trans h.noSnapshot

theorem advanceFollowerCommit (h : Within bound n) {leaderCommit : Nat}
    (hle : leaderCommit ≤ bound) (after : List Action) :
    Within bound (n.advanceFollowerCommit leaderCommit after).1 := by
  unfold Node.advanceFollowerCommit
  dsimp only
  split
  · exact ⟨(min_le_left _ _).trans hle, h.log_le, h.noSnapshot⟩
  · exact h.of_ledger (Node.ledger_applyThrough _)

theorem completeLog (h : Within bound n) {pending : PendingLogPersistence}
    (hle : pending.leaderCommit ≤ bound) : Within bound (n.completeLog pending).1 := by
  have hlogged : Within bound
      { n with durableLogIndex := max n.durableLogIndex pending.lastIndex } :=
    ⟨h.commit_le, h.log_le, h.noSnapshot⟩
  unfold Node.completeLog
  dsimp only
  split <;> split
  · exact hlogged
  · exact hlogged.of_ledger (Node.ledger_sendAppendEntries 0)
  · exact hlogged
  · exact hlogged.advanceFollowerCommit hle _

theorem completion (h : Within bound n) {action : Action} {writes : List Write}
    {completion : Event} (haction : persist action = some (writes, completion)) :
    Within bound (n.step completion).1 := by
  cases action with
  | persistHardState id term votedFor =>
      cases haction
      simp only [Node.step, Node.hardStatePersisted, Node.completeHardState]
      repeat' split
      all_goals exact ⟨h.commit_le, h.log_le, h.noSnapshot⟩
  | persistLogEntries id truncateFrom entries =>
      cases haction
      simp only [Node.step, Node.logEntriesPersisted]
      split
      · exact h
      next pending hpending =>
        refine completeLog ?_ (h.log_le _ _ hpending)
        refine ⟨h.commit_le, fun other written hwritten => ?_, h.noSnapshot⟩
        by_cases hother : other = id
        · simp [hother] at hwritten
        · exact h.log_le other written (by simpa [hother] using hwritten)
  | persistCommitIndex id index =>
      cases haction
      simp only [Node.step, Node.commitIndexPersisted, Node.completeCommit]
      split
      · exact h
      · refine of_ledger ?_ (Node.ledger_applyThrough _)
        exact ⟨h.commit_le, h.log_le, h.noSnapshot⟩
  | persistSnapshot id index term retainSuffix =>
      cases haction
      simpa only [Node.step, Node.snapshotPersisted, h.noSnapshot] using h
  | _ => simp [persist] at haction

theorem answerEntries (h : Within bound n) {r : AppendEntries} (hle : r.leaderCommit ≤ bound) :
    Within bound (n.answerEntries r).1 := by
  unfold Node.answerEntries
  split
  · exact h
  · split
    · exact h
    next newEntries truncateFrom _ =>
      unfold Node.acceptEntries
      split
      · have hpending : ∀ m : Node, m.pendingLog = n.pendingLog → ∀ id pending,
            (m.persistLog newEntries (awaiting r truncateFrom m.lastLogIndex)).1.pendingLog id =
              some pending → pending.leaderCommit ≤ bound := by
          intro m hm id pending hpending
          simp only [Node.persistLog, Function.update_apply, hm] at hpending
          split at hpending
          · exact Option.some.inj hpending ▸ hle
          · exact h.log_le id pending hpending
        dsimp only
        split
        · exact ⟨h.commit_le, hpending _ rfl, h.noSnapshot⟩
        · exact ⟨h.commit_le, hpending _ rfl, h.noSnapshot⟩
      · split
        · exact h
        · exact h.advanceFollowerCommit hle _

theorem handleAppendEntries (h : Within bound n) {r : AppendEntries}
    (hle : r.leaderCommit ≤ bound) : Within bound (n.handleAppendEntries r).1 := by
  unfold Node.handleAppendEntries
  split
  · exact h
  · have hrecognized : Within bound (n.recognizeLeader r.term r.sender) := by
      unfold Node.recognizeLeader
      dsimp only
      split <;> exact ⟨h.commit_le, h.log_le, h.noSnapshot⟩
    obtain ⟨hcommit, hlog, hsnapshot⟩ := hrecognized.answerEntries hle
    unfold Node.afterTermChange
    dsimp only
    split <;> exact ⟨hcommit, hlog, hsnapshot⟩

end Within

theorem delivered_commit_le {c' : Cluster} {position : Nat} {other : NodeID} {r : AppendEntries}
    {before q : Process} {bound : Nat}
    (hpacket : c.network[position]? = some ⟨other, .appendEntries r⟩)
    (hstep : c.step config (deliver position) = some c')
    (hbefore : (c.servers other).process = some before)
    (hq : (c'.servers other).process = some q) (hwithin : Within bound before.core)
    (hle : r.leaderCommit ≤ bound) : q.core.commitIndex ≤ bound := by
  have hselect : c.select (.deliver position) = some (other, .receive (.appendEntries r)) := by
    simp [Cluster.select, hpacket]
  simp only [Cluster.step, hselect] at hstep
  obtain ⟨turn, hserve, rfl⟩ := Option.map_eq_some_iff.mp hstep
  have hturn : turn.server.process = some q := by simpa [Cluster.after] using hq
  obtain ⟨p, hp, hserved⟩ := Server.serve_served hserve
  obtain rfl := Option.some.inj (hbefore.symm.trans hp)
  cases hserved with
  | answered prepared => simp [prepare, Message.prepare] at prepared
  | ended => simp at hturn
  | finished prepared stepped carried =>
      cases hturn
      cases prepared
      rw [afterActions_core, carryOutAll_core carried]
      exact (drain_core (fun _ _ _ _ haction h => h.completion haction) stepped
        (hwithin.handleAppendEntries hle)).commit_le

/-- A request raises the commit index at most to the one it carries. -/
theorem Explains.delivered_commit_le (h : Explains config True prompt σ ρ c) {c' : Cluster}
    {position : Nat} {other : NodeID} {r : AppendEntries} {before q : Process}
    (hpacket : c.network[position]? = some ⟨other, .appendEntries r⟩)
    (hstep : c.step config (deliver position) = some c')
    (hbefore : (c.servers other).process = some before)
    (hq : (c'.servers other).process = some q)
    (hcommits : before.core.commitIndex < q.core.commitIndex) :
    q.core.commitIndex ≤ r.leaderCommit := by
  have hrest := ((h.servers other).serves before hbefore).rest
  have hwithin : Within (max before.core.commitIndex r.leaderCommit) before.core :=
    ⟨le_max_left _ _, by simp [hrest.noLog], hrest.noSnapshot⟩
  have hle := Cluster.delivered_commit_le hpacket hstep hbefore hq hwithin (le_max_right _ _)
  omega

/--
A match index counts entries that the peer has saved, as long as the peer has
not left the Leader's term.  What a node of that term has committed is in the
Leader's log, and a node that commits on a request of the Leader commits what
the Leader had when the request was on its way.
-/
theorem match_indexes_true (config : Config) (c : Cluster) (h : Run config genuine {} c)
    (id : NodeID) (p : Process) (hp : (c.servers id).process = some p)
    (hrole : p.core.role = .leader) :
    (∀ peer, p.core.matchIndex peer ≤ p.core.lastLogIndex ∧
      ((c.servers peer).disk.hardState.term ≤ p.core.term →
        ∃ log saved, Has config (c.servers id) p.core log ∧ Saves config (c.servers peer) saved ∧
          log.take (p.core.matchIndex peer) <+: saved)) ∧
    (∀ other q, (c.servers other).process = some q → q.core.term = p.core.term →
      ∃ log followed, Has config (c.servers id) p.core log ∧
        Has config (c.servers other) q.core followed ∧ q.core.commitIndex ≤ log.length ∧
        log.take q.core.commitIndex = followed.take q.core.commitIndex) ∧
    ∀ c' c'' position other r before q, Run config genuine c c' →
      c.network[position]? = some ⟨other, .appendEntries r⟩ → r.term = p.core.term →
      c'.step config (deliver position) = some c'' →
      (c'.servers other).process = some before → (c''.servers other).process = some q →
      before.core.commitIndex < q.core.commitIndex →
      ∃ log followed, Has config (c.servers id) p.core log ∧
        Has config (c''.servers other) q.core followed ∧ q.core.commitIndex ≤ log.length ∧
        log.take q.core.commitIndex = followed.take q.core.commitIndex := by
  obtain ⟨σ, ρ, hexplains⟩ := h.explained fun c command => meets_genuine
  have hserves := (hexplains.servers id).serves p hp
  have hleads := hserves.leads hrole
  have hreplicates := hserves.replicates trivial hrole
  have hinv := hexplains.valid.inv
  refine ⟨fun peer => ?_, fun other q hq hterm => ?_, ?_⟩
  · have hmatched := hreplicates.matched peer
    refine ⟨?_, fun hterm => ⟨σ.log id, σ.log peer, hexplains.has hp, hexplains.saves peer, ?_⟩⟩
    · rw [hserves.rest.holds.lastIndex, hleads.holds]
      exact hmatched.trans (hinv.ack_le peer p.core.term).1
    · rw [(hexplains.servers peer).stored.term_eq] at hterm
      rw [hleads.holds]
      exact hinv.retains peer p.core.term _ hmatched fun U hU hle _ => by omega
  · have hrest := ((hexplains.servers other).serves q hq).rest
    have hstored := (hexplains.servers other).stored
    have hknown := hstored.known trivial
    rw [← hrest.term_eq, hterm, ← hrest.commit_eq] at hknown
    have hfront := hknown.llog config.quorum_inter hinv (by simp [hleads.leads])
    have hlength : ((σ.log other).take q.core.commitIndex).length = q.core.commitIndex := by
      rw [hrest.commit_eq]
      simpa using hstored.commit_le
    rw [← hleads.holds] at hfront
    refine ⟨σ.log id, σ.log other, hexplains.has hp, hexplains.has hq,
      hlength ▸ hfront.length_le, ?_⟩
    rw [take_eq_take hfront hlength.ge, List.take_take, min_self]
  · intro c' c'' position other r before q hrun hpacket hterm hstep hbefore hq hcommits
    obtain ⟨σ', ρ', hexplains', hextends⟩ :=
      hrun.explained_from (fun c command => meets_genuine) hexplains
    have hpacket' := hrun.packet hpacket
    have hgenuine : genuine c' (deliver position) := by
      intro dest response process hresponse
      simp [hpacket'] at hresponse
    obtain ⟨σ'', ρ'', hcontinues⟩ := hexplains'.step (meets_genuine hgenuine) hstep
    have hexplains'' := hcontinues.explains
    have htrue : TrueAppend True σ ρ other r := hexplains.network _ (List.mem_of_getElem? hpacket)
    have hle := hexplains'.delivered_commit_le hpacket' hstep hbefore hq hcommits
    -- Both logs show the committed sequence as far as the Leader had committed it.
    have hsent : (σ.log id).take r.leaderCommit <+: σ''.chosen := by
      have hknown := (htrue.known trivial).chosen hexplains.valid.agreed
      rw [hterm, ← hleads.holds] at hknown
      exact hknown.trans (hextends.chosen_le.trans hcontinues.history.chosen_le)
    have hinside : r.leaderCommit ≤ (σ.log id).length := by
      rw [hleads.holds, ← hterm]
      exact htrue.commit_le
    have hcommitted := (hexplains''.servers other).stored.commit_chosen hexplains''.valid.agreed
      trivial
    rw [← ((hexplains''.servers other).serves q hq).rest.commit_eq] at hcommitted
    refine ⟨σ.log id, σ''.log other, hexplains.has hp, hexplains''.has hq, hle.trans hinside, ?_⟩
    rw [hcommitted, take_eq_take hsent (by simp; omega), List.take_take, min_eq_left hle]

def requestIn : Message → Option AppendEntries
  | .appendEntries request => some request
  | _ => none

theorem eq_of_requestIn {message : Message} {r : AppendEntries}
    (h : requestIn message = some r) : message = .appendEntries r := by
  cases message <;> simp_all [requestIn]

theorem match_indexes_true_written : ∃ c c' p before q log saved followed,
    Run threeNodes genuine {} c ∧ (c.servers nodeA).process = some p ∧
    p.core.role = .leader ∧ p.core.logBaseIndex = 3 ∧ p.core.matchIndex nodeB = 3 ∧
    Has threeNodes (c.servers nodeA) p.core log ∧ Saves threeNodes (c.servers nodeB) saved ∧
    log.take 3 <+: saved ∧ c.step threeNodes (deliver 15) = some c' ∧
    (c.servers nodeB).process = some before ∧ before.core.commitIndex = 2 ∧
    (c'.servers nodeB).process = some q ∧ q.core.commitIndex = 3 ∧
    Has threeNodes (c'.servers nodeB) q.core followed ∧
    ∃ sent, Has threeNodes (c.servers nodeA) p.core sent ∧ 3 ≤ sent.length ∧
      sent.take 3 = followed.take 3 := by
  obtain ⟨c, hrun, p, hp, before, hbefore, c', hstep, q, hq, ⟨dest, message⟩, hpacket, r, hrequest,
      htest⟩ : ∃ c, Run threeNodes genuine {} c ∧ ∃ p ∈ (c.servers nodeA).process,
        ∃ before ∈ (c.servers nodeB).process, ∃ c' ∈ c.step threeNodes (deliver 15),
        ∃ q ∈ (c'.servers nodeB).process, ∃ packet ∈ (c.network[15]? : Option Packet),
        ∃ r ∈ requestIn packet.message, decide (packet.dest = nodeB ∧ r.term = p.core.term ∧
          p.core.role = .leader ∧ p.core.logBaseIndex = 3 ∧ p.core.matchIndex nodeB = 3 ∧
          (c.servers nodeB).disk.hardState.term ≤ p.core.term ∧
          before.core.commitIndex = 2 ∧ q.core.commitIndex = 3) = true :=
    Run.exists_of_follow compacting (by decide +kernel)
  obtain ⟨rfl, hterm, hrole, hbase, hmatch, hdurable, hcommit, hcommit'⟩ := of_decide_eq_true htest
  obtain rfl := eq_of_requestIn hrequest
  obtain ⟨hmatches, -, hfollows⟩ := match_indexes_true threeNodes c hrun nodeA p hp hrole
  obtain ⟨log, saved, hhas, hsaves, hfront⟩ := (hmatches nodeB).2 hdurable
  obtain ⟨sent, followed, hhas', hfollowed, hlength, hsame⟩ :=
    hfollows c c' 15 nodeB r before q (.refl c) hpacket hterm hstep hbefore hq (by omega)
  rw [hmatch] at hfront
  rw [hcommit'] at hlength hsame
  exact ⟨c, c', p, before, q, log, saved, followed, hrun, hp, hrole, hbase, hmatch, hhas, hsaves,
    hfront, hstep, hbefore, hcommit, hq, hcommit', hfollowed, sent, hhas', hlength, hsame⟩

/-- After a stale rejection a Leader counts a peer past its own log, with other entries. -/
theorem match_index_beyond_log : ∃ c p, Run threeNodes anything {} c ∧
    (c.servers nodeA).process = some p ∧ p.core.role = .leader ∧
    (c.servers nodeB).disk.hardState.term ≤ p.core.term ∧
    p.core.lastLogIndex < p.core.matchIndex nodeB ∧
    ∃ entry entry', p.core.log[4]? = some entry ∧
      (c.servers nodeB).disk.log[4]? = some entry' ∧ p.core.logBaseIndex = 0 ∧
      (c.servers nodeB).disk.snapshotIndex = 0 ∧ entry.term ≠ entry'.term := by
  obtain ⟨c, hrun, p, hp, entry, hentry, entry', hentry', hrole, hterm, hbeyond, hbase, hbase',
      hne⟩ : ∃ c, Run threeNodes anything resent c ∧ ∃ p ∈ (c.servers nodeA).process,
        ∃ entry ∈ p.core.log[4]?, ∃ entry' ∈ (c.servers nodeB).disk.log[4]?,
          p.core.role = .leader ∧ (c.servers nodeB).disk.hardState.term ≤ p.core.term ∧
          p.core.lastLogIndex < p.core.matchIndex nodeB ∧ p.core.logBaseIndex = 0 ∧
          (c.servers nodeB).disk.snapshotIndex = 0 ∧ entry.term ≠ entry'.term :=
    Run.exists_of_follow [deliver 55, deliver 56] (by decide +kernel)
  exact ⟨c, p, resent_reached.trans hrun, hp, hrole, hterm, hbeyond, entry, entry', hentry,
    hentry', hbase, hbase', hne⟩

end Committed

end QuorumKV.Cluster
