import Mathlib
import QuorumKV.Raft.View

/-!
# Batches of a replication round

`entriesBatch` of `raft.go` on the 64-bit positions it computes with, and the client limits
of `internal/node/set.go` under which one entry always fits a batch.  A batch is the longest
run of entries within the byte bound, so sending from the end of the batch before covers a
range without gap or overlap.
-/

namespace QuorumKV.Raft

def maxKeyBytes : Nat := 1024

def maxValueBytes : Nat := 1 <<< 20

def batchSize (entries : List LogEntry) : Nat := (entries.map LogEntry.batchBytes).sum

namespace Node

/--
The loop of `entriesBatch`, over the log from the offset of `index` on: the offset and `index`
advance together, whatever `index` wraps to.  `none` is the panic of an offset past the log.
-/
def batchEnd (first last : UInt64) (bytes : Nat) (endIndex index : UInt64) :
    List LogEntry → Option UInt64
  | [] => if index ≤ last then none else some endIndex
  | entry :: rest =>
      if index ≤ last then
        if bytes + entry.batchBytes > maxAppendEntriesBytes ∧ endIndex ≥ first then some endIndex
        else batchEnd first last (bytes + entry.batchBytes) index (index + 1) rest
      else some endIndex

/-- `entriesBatch` on 64-bit positions, `none` where the source panics. -/
def entriesBatchWord (n : Node) (first last : UInt64) : Option (List LogEntry) :=
  let base := UInt64.ofNat n.logBaseIndex
  if first = 0 ∨ first > last ∨ last > UInt64.ofNat n.lastLogIndex then some []
  else if first ≤ base then some []
  else
    let startOffset := (first - base - 1).toNat
    match batchEnd first last 0 (first - 1) first (n.log.drop startOffset) with
    | none => none
    | some endIndex =>
        let endOffset := (endIndex - base).toNat
        if startOffset ≤ endOffset ∧ endOffset ≤ n.log.length then
          some ((n.log.take endOffset).drop startOffset)
        else none

def batches (n : Node) (last : UInt64) : Nat → UInt64 → Option (List (List LogEntry))
  | 0, _ => some []
  | rounds + 1, first =>
      if first > last then some []
      else
        (n.entriesBatchWord first last).bind fun batch =>
          (n.batches last rounds (first + UInt64.ofNat batch.length)).map (batch :: ·)

/-- A log counted from its base, of entries within the client limits. -/
structure Batchable (n : Node) : Prop where
  numbered : ∀ offset entry, n.log[offset]? = some entry →
    entry.index = n.logBaseIndex + offset + 1
  last_eq : n.lastLogIndex = n.logBaseIndex + n.log.length
  last_lt : n.lastLogIndex < UInt64.size
  key_le : ∀ entry ∈ n.log, entry.key.length ≤ maxKeyBytes
  value_le : ∀ entry ∈ n.log, entry.value.length ≤ maxValueBytes

/-! ## The walk -/

theorem Batchable.batchBytes_le {n : Node} (h : n.Batchable) {entry : LogEntry}
    (hentry : entry ∈ n.log) : entry.batchBytes ≤ maxAppendEntriesBytes := by
  have hkey := h.key_le entry hentry
  have hvalue := h.value_le entry hentry
  have hlimit : 64 + maxKeyBytes + maxValueBytes ≤ maxAppendEntriesBytes := by decide
  unfold LogEntry.batchBytes
  omega

theorem batchCount_spec (entries : List LogEntry) {bytes count : Nat}
    (hbytes : bytes ≤ maxAppendEntriesBytes) (hstart : count = 0 → bytes = 0)
    (hsmall : ∀ entry ∈ entries, entry.batchBytes ≤ maxAppendEntriesBytes) :
    ∃ taken, batchCount bytes count entries = count + taken ∧ taken ≤ entries.length ∧
      bytes + batchSize (entries.take taken) ≤ maxAppendEntriesBytes ∧
      (taken = entries.length ∨ ∃ next, entries[taken]? = some next ∧
        bytes + batchSize (entries.take taken) + next.batchBytes > maxAppendEntriesBytes) := by
  induction entries generalizing bytes count with
  | nil => exact ⟨0, rfl, le_rfl, by simpa [batchSize] using hbytes, .inl rfl⟩
  | cons entry rest ih =>
      unfold batchCount
      split
      next hfull => exact ⟨0, rfl, Nat.zero_le _, by simpa [batchSize] using hbytes,
        .inr ⟨entry, rfl, by simpa [batchSize] using hfull.2⟩⟩
      next hroom =>
        have hentry := hsmall entry List.mem_cons_self
        have hfits : bytes + entry.batchBytes ≤ maxAppendEntriesBytes := by
          by_cases hcount : count = 0
          · rw [hstart hcount]
            omega
          · omega
        have hpositive : count + 1 = 0 → bytes + entry.batchBytes = 0 :=
          fun hzero => absurd hzero (Nat.succ_ne_zero _)
        obtain ⟨taken, hcount, hle, hsize, hstop⟩ := ih hfits hpositive
          fun other hother => hsmall other (List.mem_cons_of_mem _ hother)
        have hcons : batchSize ((entry :: rest).take (taken + 1)) =
            entry.batchBytes + batchSize (rest.take taken) := by
          simp [batchSize]
        refine ⟨taken + 1, by omega, Nat.succ_le_succ hle, by omega, ?_⟩
        rcases hstop with hall | ⟨next, hnext, hover⟩
        · exact .inl (congrArg Nat.succ hall)
        · exact .inr ⟨next, hnext, by omega⟩

theorem batchEnd_eq (log : List LogEntry) (bytes : Nat) {count : Nat}
    {first last endIndex index : UInt64}
    (hend : endIndex.toNat + 1 = first.toNat + count)
    (hindex : index.toNat = first.toNat + count) (hnext : index.toNat ≤ last.toNat + 1)
    (hlast : last.toNat + 1 < UInt64.size) (hlength : last.toNat + 1 - index.toNat ≤ log.length) :
    ∃ found, batchEnd first last bytes endIndex index log = some found ∧
      found.toNat + 1 =
        first.toNat + batchCount bytes count (log.take (last.toNat + 1 - index.toNat)) := by
  have hsize : UInt64.size = 18446744073709551616 := rfl
  have hle : ∀ position : UInt64, position ≤ last ↔ position.toNat ≤ last.toNat :=
    fun _ => UInt64.le_iff_toNat_le
  induction log generalizing bytes count endIndex index with
  | nil =>
      have hdone : ¬ index ≤ last := by
        rw [hle]
        simp only [List.length_nil] at hlength
        omega
      refine ⟨endIndex, by rw [batchEnd, if_neg hdone], ?_⟩
      simpa [batchCount] using hend
  | cons entry rest ih =>
      by_cases hmore : index.toNat ≤ last.toNat
      · have htake : (entry :: rest).take (last.toNat + 1 - index.toNat) =
            entry :: rest.take (last.toNat - index.toNat) := by
          rw [Nat.succ_sub hmore, List.take_succ_cons]
        have hstarted : endIndex ≥ first ↔ count ≥ 1 := by
          rw [ge_iff_le, UInt64.le_iff_toNat_le]
          omega
        rw [batchEnd, if_pos ((hle index).mpr hmore), htake, batchCount]
        by_cases hfull : count ≥ 1 ∧ bytes + entry.batchBytes > maxAppendEntriesBytes
        · rw [if_pos ⟨hfull.2, hstarted.mpr hfull.1⟩, if_pos hfull]
          exact ⟨endIndex, rfl, hend⟩
        · rw [if_neg fun h => hfull ⟨hstarted.mp h.2, h.1⟩, if_neg hfull]
          have hsucc : (index + 1).toNat = index.toNat + 1 := by
            rw [UInt64.toNat_add]
            exact Nat.mod_eq_of_lt (by simp only [UInt64.toNat_one]; omega)
          have hrest : last.toNat - index.toNat = last.toNat + 1 - (index + 1).toNat := by omega
          rw [hrest]
          refine ih (bytes + entry.batchBytes) (by omega) (by omega) (by omega) ?_
          simp only [List.length_cons] at hlength
          omega
      · have hzero : last.toNat + 1 - index.toNat = 0 := by omega
        refine ⟨endIndex, by rw [batchEnd, if_neg (fun h => hmore ((hle index).mp h))], ?_⟩
        simpa [hzero, batchCount] using hend

/-! ## One batch -/

section Range

variable {n : Node} {first last : UInt64}

def range (n : Node) (first last : Nat) : List LogEntry :=
  (n.log.drop (first - n.logBaseIndex - 1)).take (last + 1 - first)

theorem Batchable.length_range (h : n.Batchable) {first last : Nat}
    (hbase : n.logBaseIndex < first) (hlast : last ≤ n.lastLogIndex) :
    (n.range first last).length = last + 1 - first := by
  have := h.last_eq
  simp only [range, List.length_take, List.length_drop]
  omega

theorem entriesBatch_range (n : Node) {first last : Nat} (hbase : n.logBaseIndex < first)
    (hle : first ≤ last) (hlast : last ≤ n.lastLogIndex) :
    n.entriesBatch first last =
      (n.range first last).take (batchCount 0 0 (n.range first last)) := by
  rw [entriesBatch, if_neg (by omega), if_neg (by omega), range, Nat.succ_sub hle]

theorem Batchable.toNat_base (h : n.Batchable) :
    (UInt64.ofNat n.logBaseIndex).toNat = n.logBaseIndex := by
  have := h.last_eq
  have := h.last_lt
  exact UInt64.toNat_ofNat_of_lt' (by omega)

theorem Batchable.toNat_last (h : n.Batchable) :
    (UInt64.ofNat n.lastLogIndex).toNat = n.lastLogIndex :=
  UInt64.toNat_ofNat_of_lt' h.last_lt

theorem Batchable.batch_spec (h : n.Batchable) {first last : Nat}
    (hbase : n.logBaseIndex < first) (hle : first ≤ last) (hlast : last ≤ n.lastLogIndex) :
    ∃ taken, batchCount 0 0 (n.range first last) = taken ∧ 0 < taken ∧
      taken ≤ last + 1 - first ∧
      batchSize ((n.range first last).take taken) ≤ maxAppendEntriesBytes ∧
      (taken = last + 1 - first ∨ ∃ next, (n.range first last)[taken]? = some next ∧
        batchSize ((n.range first last).take taken) + next.batchBytes >
          maxAppendEntriesBytes) := by
  have hsmall : ∀ entry ∈ n.range first last, entry.batchBytes ≤ maxAppendEntriesBytes :=
    fun entry hentry => h.batchBytes_le (List.mem_of_mem_drop (List.mem_of_mem_take hentry))
  obtain ⟨taken, hcount, hlength, hsize, hstop⟩ :=
    batchCount_spec (n.range first last) (Nat.zero_le _) (fun _ => rfl : 0 = 0 → 0 = 0) hsmall
  simp only [Nat.zero_add] at hcount hsize hstop
  rw [h.length_range hbase hlast] at hlength hstop
  refine ⟨taken, hcount, Nat.pos_of_ne_zero ?_, hlength, hsize, hstop⟩
  -- Nothing taken leaves a first entry that fits alone.
  rintro rfl
  rcases hstop with hall | ⟨next, hnext, hover⟩
  · omega
  · have hfits := hsmall next (List.mem_of_getElem? hnext)
    simp only [List.take_zero, batchSize, List.map_nil, List.sum_nil] at hover
    omega

/-- Short of the last position there is, the batch on 64-bit positions is the batch. -/
theorem Batchable.entriesBatchWord_eq (h : n.Batchable) (hbase : n.logBaseIndex < first.toNat)
    (hle : first.toNat ≤ last.toNat) (hlast : last.toNat ≤ n.lastLogIndex)
    (hend : last.toNat + 1 < UInt64.size) :
    n.entriesBatchWord first last = some (n.entriesBatch first.toNat last.toNat) := by
  have hone : (1 : UInt64).toNat = 1 := rfl
  have hlength := h.last_eq
  have hbaseLe : UInt64.ofNat n.logBaseIndex ≤ first := by
    rw [UInt64.le_iff_toNat_le, h.toNat_base]
    omega
  have hoffset : (first - UInt64.ofNat n.logBaseIndex).toNat =
      first.toNat - n.logBaseIndex := by
    rw [UInt64.toNat_sub_of_le _ _ hbaseLe, h.toNat_base]
  have hstart : (first - UInt64.ofNat n.logBaseIndex - 1).toNat =
      first.toNat - n.logBaseIndex - 1 := by
    rw [UInt64.toNat_sub_of_le, hoffset, hone]
    rw [UInt64.le_iff_toNat_le, hoffset, hone]
    omega
  have hbefore : (first - 1).toNat + 1 = first.toNat + 0 := by
    rw [UInt64.toNat_sub_of_le, hone]
    · omega
    · rw [UInt64.le_iff_toNat_le, hone]
      omega
  obtain ⟨found, hfound, hposition⟩ :=
    batchEnd_eq (n.log.drop (first.toNat - n.logBaseIndex - 1)) 0 hbefore rfl
      (show first.toNat ≤ last.toNat + 1 by omega) hend (by rw [List.length_drop]; omega)
  rw [← range] at hposition
  obtain ⟨taken, hcount, hpos, hbound, -, -⟩ := h.batch_spec hbase hle hlast
  rw [hcount] at hposition
  have hoffsetEnd : (found - UInt64.ofNat n.logBaseIndex).toNat =
      found.toNat - n.logBaseIndex := by
    rw [UInt64.toNat_sub_of_le, h.toNat_base]
    rw [UInt64.le_iff_toNat_le, h.toNat_base]
    omega
  have hguard : ¬ (first = 0 ∨ first > last ∨ last > UInt64.ofNat n.lastLogIndex) := by
    rw [← UInt64.toNat_inj, gt_iff_lt, gt_iff_lt, UInt64.lt_iff_toNat_lt, UInt64.lt_iff_toNat_lt,
      h.toNat_last, UInt64.toNat_zero]
    omega
  have habove : ¬ first ≤ UInt64.ofNat n.logBaseIndex := by
    rw [UInt64.le_iff_toNat_le, h.toNat_base]
    omega
  unfold entriesBatchWord
  simp only [if_neg hguard, if_neg habove, hstart, hfound, hoffsetEnd]
  rw [if_pos (by omega), entriesBatch_range n hbase hle hlast, hcount, List.drop_take, range,
    List.take_take]
  congr 2
  omega

/-! ## One batch after the other -/

theorem range_split (n : Node) {first last count : Nat} (hbase : n.logBaseIndex < first) :
    n.range first last = (n.range first last).take count ++ n.range (first + count) last := by
  have hrest : n.range (first + count) last = (n.range first last).drop count := by
    have hoffset : first + count - n.logBaseIndex - 1 = first - n.logBaseIndex - 1 + count := by
      omega
    have hlength : last + 1 - (first + count) = last + 1 - first - count := by omega
    rw [range, range, List.drop_take, List.drop_drop, hoffset, hlength]
  rw [hrest, List.take_append_drop]

theorem Batchable.batches_eq (h : n.Batchable) (rounds : Nat)
    (hbase : n.logBaseIndex < first.toNat) (hlast : last.toNat ≤ n.lastLogIndex)
    (hend : last.toNat + 1 < UInt64.size) (hrounds : last.toNat + 1 - first.toNat ≤ rounds) :
    ∃ parts, n.batches last rounds first = some parts ∧
      parts.flatten = n.range first.toNat last.toNat ∧ ∀ part ∈ parts, part ≠ [] := by
  induction rounds generalizing first with
  | zero =>
      have hzero : last.toNat + 1 - first.toNat = 0 := by omega
      exact ⟨[], rfl, by simp [range, hzero], by simp⟩
  | succ rounds ih =>
      unfold batches
      split
      next hdone =>
        rw [gt_iff_lt, UInt64.lt_iff_toNat_lt] at hdone
        have hzero : last.toNat + 1 - first.toNat = 0 := by omega
        exact ⟨[], rfl, by simp [range, hzero], by simp⟩
      next hmore =>
        rw [gt_iff_lt, UInt64.lt_iff_toNat_lt, Nat.not_lt] at hmore
        obtain ⟨taken, hcount, hpos, hbound, -, -⟩ := h.batch_spec hbase hmore hlast
        have hlength : ((n.range first.toNat last.toNat).take taken).length = taken := by
          rw [List.length_take, h.length_range hbase hlast]
          omega
        rw [h.entriesBatchWord_eq hbase hmore hlast hend, entriesBatch_range n hbase hmore hlast,
          hcount, Option.bind_some, hlength]
        have hnext : (first + UInt64.ofNat taken).toNat = first.toNat + taken := by
          rw [UInt64.toNat_add, UInt64.toNat_ofNat_of_lt' (by omega)]
          exact Nat.mod_eq_of_lt (by
            have : UInt64.size = 18446744073709551616 := rfl
            omega)
        have hnextBase : n.logBaseIndex < (first + UInt64.ofNat taken).toNat := by omega
        obtain ⟨parts, hparts, hflat, hne⟩ := ih hnextBase (by omega)
        refine ⟨_, by rw [hparts]; rfl, ?_, ?_⟩
        · rw [List.flatten_cons, hflat, hnext, ← range_split n hbase]
        · rintro part (_ | ⟨_, hpart⟩)
          · exact List.ne_nil_of_length_pos (hlength.symm ▸ hpos)
          · exact hne part hpart

/--
Short of the last position 64 bits can name, a batch of a range of the log is a nonempty run
of entries from its first position on, within the byte bound and maximal, and batches sent
one after the other are the range.
-/
theorem entriesBatch_progress (h : n.Batchable) (hbase : n.logBaseIndex < first.toNat)
    (hle : first ≤ last) (hlast : last.toNat ≤ n.lastLogIndex)
    (hend : last.toNat < UInt64.size - 1) :
    (∃ batch, n.entriesBatchWord first last = some batch ∧
      batch = n.entriesBatch first.toNat last.toNat ∧ batch ≠ [] ∧
      (∀ offset entry, batch[offset]? = some entry →
        n.log[first.toNat - n.logBaseIndex - 1 + offset]? = some entry ∧
          entry.index = first.toNat + offset) ∧
      first.toNat + batch.length ≤ last.toNat + 1 ∧
      batchSize batch ≤ maxAppendEntriesBytes ∧
      (first.toNat + batch.length = last.toNat + 1 ∨
        ∃ next, n.log[first.toNat - n.logBaseIndex - 1 + batch.length]? = some next ∧
          batchSize batch + next.batchBytes > maxAppendEntriesBytes)) ∧
    ∃ parts, n.batches last (last.toNat + 1 - first.toNat) first = some parts ∧
      parts.flatten = n.range first.toNat last.toNat ∧ ∀ part ∈ parts, part ≠ [] := by
  rw [UInt64.le_iff_toNat_le] at hle
  have hend' : last.toNat + 1 < UInt64.size := by omega
  obtain ⟨taken, hcount, hpos, hbound, hsize, hstop⟩ := h.batch_spec hbase hle hlast
  have hlength : ((n.range first.toNat last.toNat).take taken).length = taken := by
    rw [List.length_take, h.length_range hbase hlast]
    omega
  have hat : ∀ offset entry, (n.range first.toNat last.toNat)[offset]? = some entry →
      n.log[first.toNat - n.logBaseIndex - 1 + offset]? = some entry := by
    intro offset entry hentry
    simp only [range, List.getElem?_take] at hentry
    split at hentry
    · rwa [List.getElem?_drop] at hentry
    · simp at hentry
  refine ⟨⟨_, h.entriesBatchWord_eq hbase hle hlast hend', rfl, ?_⟩,
    h.batches_eq _ hbase hlast hend' le_rfl⟩
  rw [entriesBatch_range n hbase hle hlast, hcount, hlength]
  refine ⟨List.ne_nil_of_length_pos (hlength.symm ▸ hpos), fun offset entry hentry => ?_,
    by omega, hsize, ?_⟩
  · rw [List.getElem?_take] at hentry
    split at hentry
    · have hlog := hat offset entry hentry
      have hindex := h.numbered _ entry hlog
      exact ⟨hlog, by omega⟩
    · simp at hentry
  · rcases hstop with hall | ⟨next, hnext, hover⟩
    · exact .inl (by omega)
    · exact .inr ⟨next, hat taken next hnext, hover⟩

/-- A core that holds one set for each value, counted from `base`. -/
def holding (base : Nat) (values : List Bytes) : Node where
  id := [1]
  peers := [[2], [3]]
  lastLogIndex := base + values.length
  logBaseIndex := base
  log := values.mapIdx fun offset value =>
    { index := base + offset + 1, term := 1, type := .set, value := value }

theorem mem_holding {base : Nat} {values : List Bytes} {entry : LogEntry}
    (h : entry ∈ (holding base values).log) : entry.key = [] ∧ entry.value ∈ values := by
  obtain ⟨offset, hlt, rfl⟩ := List.mem_mapIdx.mp h
  exact ⟨rfl, List.getElem_mem hlt⟩

theorem holding_batchable {base : Nat} {values : List Bytes}
    (hlast : base + values.length < UInt64.size)
    (hvalues : ∀ value ∈ values, value.length ≤ maxValueBytes) :
    (holding base values).Batchable := by
  refine ⟨fun offset entry hentry => ?_, by simp [holding], hlast, fun entry hmem => ?_,
    fun entry hmem => hvalues _ (mem_holding hmem).2⟩
  · simp only [holding, List.getElem?_mapIdx, Option.map_eq_some_iff] at hentry
    obtain ⟨value, -, rfl⟩ := hentry
    rfl
  · rw [(mem_holding hmem).1]
    exact Nat.zero_le _

def fullValue : Bytes := List.replicate maxValueBytes 0

theorem maxAppendEntriesBytes_lt {first second : LogEntry}
    (hfirst : first.value.length = maxValueBytes) (hsecond : second.value.length = maxValueBytes) :
    maxAppendEntriesBytes < batchSize [first, second] := by
  have hlimit : maxAppendEntriesBytes < 2 * maxValueBytes := by decide
  simp only [batchSize, List.map_cons, List.map_nil, List.sum_cons, List.sum_nil,
    LogEntry.batchBytes]
  omega

/-- Two entries with values of the largest size are two batches. -/
theorem entriesBatch_progress_sample :
    (holding 2 [fullValue, fullValue]).Batchable ∧
      ∃ batch parts, (holding 2 [fullValue, fullValue]).entriesBatchWord 3 4 = some batch ∧
        batch.length = 1 ∧ (holding 2 [fullValue, fullValue]).batches 4 2 3 = some parts ∧
        parts.flatten = (holding 2 [fullValue, fullValue]).log := by
  have hlength : fullValue.length = maxValueBytes := List.length_replicate
  have h : (holding 2 [fullValue, fullValue]).Batchable :=
    holding_batchable (by decide) (by simp [hlength])
  obtain ⟨⟨batch, hbatch, -, hsome, hat, hle, hsize, -⟩, parts, hparts, hflat, -⟩ :=
    @entriesBatch_progress _ 3 4 h (by decide) (by decide) (by decide) (by decide)
  refine ⟨h, batch, parts, hbatch, ?_, hparts, hflat⟩
  have hvalue : ∀ entry ∈ batch, entry.value.length = maxValueBytes := by
    intro entry hmem
    obtain ⟨offset, hentry⟩ := List.mem_iff_getElem?.mp hmem
    have hmem := (mem_holding (List.mem_of_getElem? (hat offset entry hentry).1)).2
    obtain heq | heq := List.mem_pair.mp hmem <;> rw [heq, hlength]
  have hpos := List.length_pos_iff.mpr hsome
  have hle : 3 + batch.length ≤ 5 := hle
  by_contra hone
  obtain ⟨first, second, rfl⟩ := List.length_eq_two.mp (by omega : batch.length = 2)
  exact absurd hsize (Nat.not_le.mpr
    (maxAppendEntriesBytes_lt (hvalue first (by simp)) (hvalue second (by simp))))

/-- At the last position 64 bits can name the loop wraps past it and leaves the log. -/
theorem entriesBatch_last_position :
    (holding 18446744073709551614 [[1]]).Batchable ∧
      (holding 18446744073709551614 [[1]]).lastLogIndex = 18446744073709551615 ∧
      (holding 18446744073709551614 [[1]]).entriesBatchWord
        18446744073709551615 18446744073709551615 = none :=
  ⟨holding_batchable (by decide) (by decide), rfl, by decide +kernel⟩

end Range

end Node

end QuorumKV.Raft
