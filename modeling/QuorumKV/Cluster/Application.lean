import QuorumKV.Cluster.Progress

/-!
# Applying what is committed

`applyThrough` hands out the entries up to an index, then the reads that waited
for them.  Whatever log the core holds, its applications walk along that log.
-/

namespace QuorumKV.Cluster

open Raft QuorumKV.Runtime Session Foundation

def Applying : Action → Prop
  | .applyEntry _ | .becameReadReady _ | .readConfirmed .. => True
  | _ => False

theorem quiet_of_applying {actions : List Action} (h : ∀ action ∈ actions, Applying action) :
    Quiet actions := by
  intro action hmem
  have happlying := h action hmem
  cases action <;> first | rfl | exact happlying.elim

theorem announces_of_applying {config : Config} {guarded : Prop} {σ : Ideal} {ρ : Rounds}
    {id : NodeID} {action : Action} (h : Applying action) :
    Announces config guarded σ ρ id action := by
  cases action <;> trivial

structure Applied (log : List LogEntry) (index : Nat) (n n' : Node) : Prop where
  eq : n' = { n with
    lastApplied := index
    readReady := n'.readReady
    pendingReads := n'.pendingReads }
  ready : n'.readReady = true → n.readReady = true ∨
    ∃ position ≤ index, 0 < position ∧ termAt LogEntry.term log position = n.term
  reads : ∀ read ∈ n'.pendingReads, read ∈ n.pendingReads

section Loops

variable {log other : List LogEntry} {confirms : ReadID → Nat → Prop} {n : Node}

theorem completeReads_applying (n : Node) : ∀ action ∈ n.completeReads.2, Applying action := by
  intro action hmem
  obtain ⟨read, -, rfl⟩ := List.mem_map.mp hmem
  trivial

theorem completeReads_walk
    (hconfirms : ∀ read ∈ n.pendingReads, read.confirmed = true →
      read.commitIndex ≤ n.lastApplied → confirms read.id n.lastApplied) :
    Walk other confirms n.lastApplied n.completeReads.2 n.lastApplied := by
  simp only [Node.completeReads]
  generalize hfinished : n.pendingReads.filter (fun read =>
    read.confirmed && decide (read.commitIndex ≤ n.lastApplied)) = finished
  have hall : ∀ read ∈ finished, confirms read.id n.lastApplied := by
    intro read hmem
    rw [← hfinished, List.mem_filter, Bool.and_eq_true, decide_eq_true_eq] at hmem
    exact hconfirms read hmem.1 hmem.2.1 hmem.2.2
  clear hfinished
  induction finished with
  | nil => rfl
  | cons read rest ih =>
      exact ⟨hall read (by simp), ih fun other hmem => hall other (by simp [hmem])⟩

def advance (n : Node) (entry : LogEntry) : Node :=
  { n with
    lastApplied := n.lastApplied + 1
    readReady := n.readReady || decide (n.role = .leader ∧ n.readReady = false ∧
      entry.type = .noOp ∧ entry.term = n.term) }

theorem applyLoop_succ (count : Nat) (h : n.Holds log) (hbase : n.logBaseIndex ≤ n.lastApplied)
    (hlt : n.lastApplied < log.length) :
    ∃ entry announced, log[n.lastApplied]? = some entry ∧
      n.applyLoop (count + 1) = (((advance n entry).applyLoop count).1,
        .applyEntry entry :: (announced ++ ((advance n entry).applyLoop count).2)) ∧
      ∀ action ∈ announced, action = .becameReadReady n.term := by
  have hentry : n.log[n.lastApplied + 1 - n.logBaseIndex - 1]? = some log[n.lastApplied] := by
    rw [h.entry_eq (Nat.lt_succ_of_le hbase), Nat.succ_sub_one, List.getElem?_eq_getElem hlt]
  refine ⟨log[n.lastApplied], if n.role = .leader ∧ n.readReady = false ∧
    log[n.lastApplied].type = .noOp ∧ log[n.lastApplied].term = n.term then
      [.becameReadReady n.term] else [], List.getElem?_eq_getElem hlt, ?_, ?_⟩
  · simp only [Node.applyLoop, hentry, advance]
  · intro action hmem
    split at hmem
    · exact List.mem_singleton.mp hmem
    · simp at hmem

theorem applyLoop_applied (count : Nat) (h : n.Holds log)
    (hbase : n.logBaseIndex ≤ n.lastApplied) (hle : n.lastApplied + count ≤ log.length) :
    Applied log (n.lastApplied + count) n (n.applyLoop count).1 := by
  induction count generalizing n with
  | zero => exact ⟨rfl, .inl, fun _ hread => hread⟩
  | succ count ih =>
      obtain ⟨entry, announced, hentry, hloop, -⟩ :=
        applyLoop_succ count h hbase (by omega)
      have hholds : (advance n entry).Holds log := h.of_parts rfl
      have hcount : (advance n entry).lastApplied + count = n.lastApplied + (count + 1) := by
        simp only [advance]
        omega
      have happlied := ih hholds (hbase.trans (Nat.le_succ _)) (hcount.le.trans hle)
      rw [hcount] at happlied
      rw [hloop]
      refine ⟨happlied.eq, fun hready => ?_, happlied.reads⟩
      rcases happlied.ready hready with hready | hposition
      · simp only [advance, Bool.or_eq_true, decide_eq_true_eq] at hready
        rcases hready with hready | ⟨-, -, -, hterm⟩
        · exact .inl hready
        · refine .inr ⟨n.lastApplied + 1, by omega, Nat.succ_pos _, ?_⟩
          rw [termAt, hentry]
          exact hterm
      · exact .inr hposition

theorem applyLoop_applying (count : Nat) (n : Node) :
    ∀ action ∈ (n.applyLoop count).2, Applying action := by
  induction count generalizing n with
  | zero => simp [Node.applyLoop]
  | succ count ih =>
      intro action hmem
      unfold Node.applyLoop at hmem
      split at hmem
      · simp at hmem
      · rcases List.mem_cons.mp hmem with rfl | hmem
        · trivial
        · rcases List.mem_append.mp hmem with hmem | hmem
          · split at hmem
            · rw [List.mem_singleton.mp hmem]
              trivial
            · simp at hmem
          · exact ih _ action hmem

theorem applyLoop_walk (count : Nat) (h : n.Holds log)
    (hbase : n.logBaseIndex ≤ n.lastApplied) (hle : n.lastApplied + count ≤ log.length)
    (hsame : ∀ offset < n.lastApplied + count, other[offset]? = log[offset]?) :
    Walk other confirms n.lastApplied (n.applyLoop count).2 (n.lastApplied + count) := by
  induction count generalizing n with
  | zero => rfl
  | succ count ih =>
      obtain ⟨entry, announced, hentry, hloop, hannounced⟩ :=
        applyLoop_succ count h hbase (by omega)
      have hholds : (advance n entry).Holds log := h.of_parts rfl
      have hcount : (advance n entry).lastApplied + count = n.lastApplied + (count + 1) := by
        simp only [advance]
        omega
      have hwalk := ih hholds (hbase.trans (Nat.le_succ _)) (hcount.le.trans hle)
        (by rw [hcount]; exact hsame)
      rw [hcount] at hwalk
      rw [hloop]
      refine ⟨(hsame _ (by omega)).trans hentry, (Walk.plain ?_ _).append hwalk⟩
      intro action hmem
      rw [hannounced action hmem]
      trivial

theorem completeReads_applied (log : List LogEntry) (n : Node) :
    Applied log n.lastApplied n n.completeReads.1 :=
  ⟨rfl, .inl, fun _ hread => List.mem_of_mem_filter hread⟩

theorem Applied.trans {index later : Nat} {n' n'' : Node} (h : Applied log index n n')
    (h' : Applied log later n' n'') (hle : index ≤ later) : Applied log later n n'' := by
  refine ⟨?_, fun hready => ?_, fun read hread => h.reads read (h'.reads read hread)⟩
  · rw [h'.eq, h.eq]
  · rcases h'.ready hready with hready | ⟨position, hposition, hpos, hterm⟩
    · rcases h.ready hready with hready | ⟨position, hposition, hrest⟩
      · exact .inl hready
      · exact .inr ⟨position, hposition.trans hle, hrest⟩
    · rw [(congrArg Node.term h.eq :)] at hterm
      exact .inr ⟨position, hposition, hpos, hterm⟩

theorem applyThrough_applied (h : n.Holds log) (hbase : n.logBaseIndex ≤ n.lastApplied)
    {index : Nat} (hle : index ≤ log.length) :
    Applied log (max n.lastApplied index) n (n.applyThrough index).1 := by
  unfold Node.applyThrough
  split
  next hdone =>
    rw [max_eq_left hdone]
    exact completeReads_applied log n
  next hlater =>
    have hcount : n.lastApplied + (index - n.lastApplied) = index := by omega
    have happlied := applyLoop_applied (index - n.lastApplied) h hbase (by omega)
    rw [hcount] at happlied
    have hreads := completeReads_applied log (n.applyLoop (index - n.lastApplied)).1
    rw [(congrArg Node.lastApplied happlied.eq :)] at hreads
    rw [max_eq_right (by omega)]
    exact happlied.trans hreads le_rfl

theorem applyThrough_applying (n : Node) (index : Nat) :
    ∀ action ∈ (n.applyThrough index).2, Applying action := by
  unfold Node.applyThrough
  split
  · exact completeReads_applying n
  · intro action hmem
    rcases List.mem_append.mp hmem with hmem | hmem
    · exact applyLoop_applying _ _ action hmem
    · exact completeReads_applying _ action hmem

theorem applyThrough_walk (h : n.Holds log) (hbase : n.logBaseIndex ≤ n.lastApplied)
    {index : Nat} (hle : index ≤ log.length)
    (hsame : ∀ offset < index, other[offset]? = log[offset]?)
    (hconfirms : ∀ read ∈ n.pendingReads, read.confirmed = true →
      read.commitIndex ≤ max n.lastApplied index → confirms read.id (max n.lastApplied index)) :
    Walk other confirms n.lastApplied (n.applyThrough index).2 (max n.lastApplied index) := by
  unfold Node.applyThrough
  split
  next hdone =>
    rw [max_eq_left hdone] at hconfirms ⊢
    exact completeReads_walk hconfirms
  next hlater =>
    have hcount : n.lastApplied + (index - n.lastApplied) = index := by omega
    have happlied := applyLoop_applied (index - n.lastApplied) h hbase (by omega)
    have hwalk : Walk other confirms _ _ _ := applyLoop_walk (index - n.lastApplied) h hbase
      (by omega) (by rw [hcount]; exact hsame)
    rw [hcount] at happlied hwalk
    rw [max_eq_right (by omega)] at hconfirms ⊢
    have hindex : (n.applyLoop (index - n.lastApplied)).1.lastApplied = index :=
      congrArg Node.lastApplied happlied.eq
    refine hwalk.append ?_
    have hreads : Walk other confirms _ (n.applyLoop (index - n.lastApplied)).1.completeReads.2 _ :=
      completeReads_walk fun read hread hconfirmed hcommit =>
        hindex.symm ▸ hconfirms read (happlied.reads read hread) hconfirmed (hindex ▸ hcommit)
    rwa [hindex] at hreads

end Loops

/-! ## Committed positions -/

section Commits

variable {config : Config} {guarded : Prop} {σ σ' : Ideal} {id : NodeID}
  {files : List Snapshot.State} {disk : Disk} {n n' : Node} {index : Nat}

theorem Stored.kept (h : Stored guarded σ id files disk) (hacts : Acts config id σ σ')
    (hterm : σ'.term id = σ.term id) (hvote : σ'.vote id = σ.vote id)
    (hlog : σ'.log id = σ.log id) : Stored guarded σ' id files disk := by
  refine h.hardState hacts hlog (hterm ▸ h.term_eq) ?_
  rw [hterm, hvote]
  exact h.vote_eq

theorem Stored.committed (h : Stored guarded σ id files disk) (hle : disk.commitIndex ≤ index)
    (hinside : index ≤ (σ.log id).length)
    (hknown : guarded → σ.Known (σ.term id) ((σ.log id).take index)) :
    Stored guarded σ id files { disk with commitIndex := index } :=
  { h with
    base_le := h.base_le.trans hle
    commit_le := hinside
    known := hknown }

theorem AtRest.committed (h : AtRest config σ id files disk n) (hterm : σ'.term id = σ.term id)
    (hlog : σ'.log id = σ.log id) (hle : n.commitIndex ≤ index)
    (hbody : body n' = body { n with
      commitIndex := index, durableCommitIndex := index, lastApplied := index }) :
    AtRest config σ' id files { disk with commitIndex := index } n' := by
  have happlied := h.applied_le.trans hle
  have hrest : AtRest config σ' id files { disk with commitIndex := index } { n with
      commitIndex := index, durableCommitIndex := index, lastApplied := index } :=
    { h with
      holds := by
        rw [hlog]
        exact h.holds.of_parts rfl
      term_eq := hterm ▸ h.term_eq
      commit_eq := rfl
      base_le := h.base_le.trans happlied
      applied_le := le_rfl
      durableCommit := rfl }
  exact hrest.of_body hbody

end Commits

end QuorumKV.Cluster
