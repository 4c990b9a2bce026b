import QuorumKV.Wal.Usable

/-!
# Replay of arbitrary records

`applyRecord` again, with what its first model leaves out: every slice and index
expression of the source is checked, `none` standing for the runtime panic, and a
record that is refused half way leaves the entries it had already appended.  On
payloads shorter than four gigabytes nothing panics, and whatever the bytes say
the recovered state only moves forward.
-/

namespace QuorumKV.Wal

open Foundation
open QuorumKV.Raft (Bytes)

/-! ## Checked reads -/

def slice? (bytes : Bytes) (first last : Nat) : Option Bytes :=
  if first ≤ last ∧ last ≤ bytes.length then some (slice bytes first last) else none

/-- `binary.BigEndian.Uint64(bytes[first:last])`, which reads eight bytes. -/
def uint64? (bytes : Bytes) (first last : Nat) : Option UInt64 :=
  (slice? bytes first last).bind fun field =>
    if 8 ≤ field.length then some (uint64 (field.take 8)) else none

/-- `binary.BigEndian.Uint32(bytes[first:last])`. -/
def uint32? (bytes : Bytes) (first last : Nat) : Option UInt32 :=
  (slice? bytes first last).bind fun field =>
    if 4 ≤ field.length then some (uint32 (field.take 4)) else none

theorem slice?_eq {bytes : Bytes} {first last : Nat} (hfirst : first ≤ last)
    (hlast : last ≤ bytes.length) : slice? bytes first last = some (slice bytes first last) :=
  if_pos ⟨hfirst, hlast⟩

theorem uint64?_eq {bytes : Bytes} {first last : Nat} (hfirst : first + 8 = last)
    (hlast : last ≤ bytes.length) :
    uint64? bytes first last = some (uint64 (slice bytes first last)) := by
  have hlength : (slice bytes first last).length = 8 := by
    rw [slice_length hlast]
    omega
  rw [uint64?, slice?_eq (by omega) hlast, Option.bind_some, if_pos hlength.ge,
    List.take_of_length_le hlength.le]

theorem uint32?_eq {bytes : Bytes} {first last : Nat} (hfirst : first + 4 = last)
    (hlast : last ≤ bytes.length) :
    uint32? bytes first last = some (uint32 (slice bytes first last)) := by
  have hlength : (slice bytes first last).length = 4 := by
    rw [slice_length hlast]
    omega
  rw [uint32?, slice?_eq (by omega) hlast, Option.bind_some, if_pos hlength.ge,
    List.take_of_length_le hlength.le]

theorem slice_drop (bytes : Bytes) (offset first last : Nat) :
    slice (bytes.drop offset) first last = slice bytes (offset + first) (offset + last) := by
  simp only [slice, List.drop_drop]
  congr 1
  omega

/-! ## Checked replay -/

/-- The entry a legacy record holds at `offset`. -/
def decodeEntryHead? (payload : Bytes) (offset : Nat) : Option LogEntry := do
  let index ← uint64? payload offset (offset + 8)
  let term ← uint64? payload (offset + 8) (offset + 16)
  let type ← payload[offset + 16]?
  return { index := index, term := term, type := type }

def decodeEntryV2? (payload : Bytes) (offset : Nat) : Option LogEntry := do
  let entry ← decodeEntryHead? payload offset
  let id ← slice? payload (offset + 17) (offset + 33)
  return { entry with sessionID := copySessionID id }

/-- The bounds of key and value are computed in 32 bits. -/
def decodeEntryV3? (payload : Bytes) (keyLength : UInt32) : Option LogEntry := do
  let entry ← decodeEntryHead? payload 0
  let sequence ← uint64? payload 33 41
  let key ← slice? payload 49 (49 + keyLength).toNat
  let value ← slice? payload (49 + keyLength).toNat payload.length
  let id ← slice? payload 17 33
  return { entry with
    sequence := sequence
    key := key
    value := value
    sessionID := copySessionID id }

namespace RecoveredState

def leave (state : RecoveredState) :
    Except RecordError RecoveredState → RecoveredState × Option RecordError
  | .ok next => (next, none)
  | .error e => (state, some e)

def leaveEntries (width : Nat) (decode : Bytes → Nat → Option LogEntry) (payload : Bytes) :
    Nat → Nat → RecoveredState → Option (RecoveredState × Option RecordError)
  | 0, _, state => some (state, none)
  | count + 1, offset, state =>
      match decode payload offset with
      | none => none
      | some entry =>
          match state.appendEntry entry with
          | .error e => some (state, some e)
          | .ok next => leaveEntries width decode payload count (offset + width) next

/-- `sort.Search` for the first entry at or above `from'`, between `i` and `j`. -/
def search? (log : List LogEntry) (from' : UInt64) (i j : Nat) : Option Nat :=
  if i < j then
    match log[(i + j) / 2]? with
    | none => none
    | some entry =>
        if entry.index ≥ from' then search? log from' i ((i + j) / 2)
        else search? log from' ((i + j) / 2 + 1) j
  else some i
  termination_by j - i
  decreasing_by
    all_goals omega

/-- `state.Log[:count]`. -/
def cut? (state : RecoveredState) (count : Nat) : Option RecoveredState :=
  if count ≤ state.log.length then some { state with log := state.log.take count } else none

def leaveTruncation (state : RecoveredState) (first : UInt64) :
    Option (RecoveredState × Option RecordError) :=
  if first = 0 then some (state, some .truncationZero)
  else if first ≤ state.snapshotIndex then some (state, none)
  else if first > state.lastIndex + 1 then
    some (state, some (.truncationOutside first state.lastIndex))
  else if first ≤ state.commitIndex then
    some (state, some (.truncationCommitted first state.commitIndex))
  else (state.cut? (first - state.snapshotIndex - 1).toNat).map fun next => (next, none)

def leaveCheckpoint (state : RecoveredState) (checkpoint : CompactionCheckpoint) :
    Option (RecoveredState × Option RecordError) :=
  if checkpoint.identity ≠ state.identity then some (state, some .checkpointIdentity)
  else if checkpoint.snapshotIndex > state.snapshotIndex then
    some (state, some .checkpointNewer)
  else if checkpoint.truncateFrom ≠ 0 then
    if checkpoint.truncateFrom ≠ checkpoint.snapshotIndex + 1 then
      some (state, some
        (.checkpointTruncation checkpoint.truncateFrom checkpoint.snapshotIndex))
    else if checkpoint.snapshotIndex = state.snapshotIndex then
      ((search? state.log checkpoint.truncateFrom 0 state.log.length).bind state.cut?).map
        fun next => (next, none)
    else some (state, none)
  else some (state, none)

end RecoveredState

/-- `applyRecord`: the state it leaves and its error, `none` when it panics. -/
def replayRecord (json : CheckpointJSON) (kind : UInt8) (payload : Bytes)
    (state : RecoveredState) : Option (RecoveredState × Option RecordError) :=
  match RecordType.ofByte? kind with
  | none => some (state, some (.unknownType kind))
  | some .clusterIdentity => some (state.leave (state.applyClusterIdentity payload))
  | some .nodeIdentity => some (state.leave (state.applyNodeIdentity payload))
  | some .hardState =>
      if state.identity.nodeID = [] then some (state, some .hardStateBeforeIdentity)
      else if payload.length < 8 then some (state, some .hardStateShort)
      else do
        let term ← uint64? payload 0 8
        let votedFor ← slice? payload 8 payload.length
        return (state.applyHardState ⟨term, votedFor⟩, none)
  | some .logEntries =>
      if payload.length = 0 ∨ payload.length % 17 ≠ 0 then
        some (state, some (.entriesLength payload.length))
      else state.leaveEntries 17 decodeEntryHead? payload (payload.length / 17) 0
  | some .logEntriesV2 =>
      if payload.length = 0 ∨ payload.length % 33 ≠ 0 then
        some (state, some (.sessionEntriesLength payload.length))
      else state.leaveEntries 33 decodeEntryV2? payload (payload.length / 33) 0
  | some .logEntryV3 =>
      if payload.length < 49 then some (state, some (.entryShort payload.length))
      else do
        let keyLength ← uint32? payload 41 45
        let valueLength ← uint32? payload 45 49
        let want := 49 + keyLength.toNat + valueLength.toNat
        if want ≠ payload.length then some (state, some (.entryLength payload.length want))
        else (decodeEntryV3? payload keyLength).map fun entry =>
          state.leave (state.appendEntry entry)
  | some .logTruncation =>
      if payload.length ≠ 8 then some (state, some (.truncationLength payload.length))
      else (uint64? payload 0 8).bind state.leaveTruncation
  | some .commitIndex =>
      if payload.length ≠ 8 then some (state, some (.commitLength payload.length))
      else (uint64? payload 0 8).map fun index => state.leave (state.applyCommitIndex index)
  | some .compactionCheckpoint =>
      match json.unmarshal payload with
      | none => some (state, some .checkpointDecode)
      | some checkpoint => state.leaveCheckpoint checkpoint

def replayRecords (json : CheckpointJSON) (state : RecoveredState) :
    List (UInt8 × Bytes) → Option RecoveredState
  | [] => some state
  | (kind, payload) :: records =>
      (replayRecord json kind payload state).bind fun left => replayRecords json left.1 records

/-! ## What a record may change -/

def returned (left : RecoveredState) : Option RecordError → Except RecordError RecoveredState
  | none => .ok left
  | some e => .error e

namespace RecoveredState

/-- The log stays well formed over one Snapshot and the durable facts only move forward. -/
structure Keeps (state next : RecoveredState) : Prop where
  contiguous : Contiguous next.snapshotIndex.toNat next.log
  snapshotIndex : next.snapshotIndex = state.snapshotIndex
  term_le : state.hardState.term ≤ next.hardState.term
  commit_le : state.commitIndex ≤ next.commitIndex
  vote : next.hardState.term = state.hardState.term → state.hardState.votedFor ≠ [] →
    next.hardState.votedFor = state.hardState.votedFor
  clusterID : state.identity.clusterID ≠ [] →
    next.identity.clusterID = state.identity.clusterID
  nodeID : state.identity.nodeID ≠ [] → next.identity.nodeID = state.identity.nodeID
  named : next.identity.nodeID ≠ state.identity.nodeID → state.identity.clusterID ≠ []

def KeepsCommitted (state next : RecoveredState) : Prop :=
  ∀ entry ∈ state.log, entry.index ≤ state.commitIndex → entry ∈ next.log

section Keeps

variable {state next : RecoveredState}

theorem Keeps.of_log (hlog : Contiguous state.snapshotIndex.toNat next.log)
    (hsame : next = { state with log := next.log }) : state.Keeps next := by
  rw [hsame]
  exact ⟨hlog, rfl, UInt64.le_rfl, UInt64.le_rfl, fun _ _ => rfl, fun _ => rfl, fun _ => rfl,
    fun h => absurd rfl h⟩

theorem Keeps.after_log {log : List LogEntry}
    (h : { state with log := log : RecoveredState }.Keeps next) : state.Keeps next :=
  ⟨h.contiguous, h.snapshotIndex, h.term_le, h.commit_le, h.vote, h.clusterID, h.nodeID, h.named⟩

theorem Keeps.refl (h : Contiguous state.snapshotIndex.toNat state.log) : state.Keeps state :=
  .of_log h rfl

theorem Keeps.leave {result : Except RecordError RecoveredState}
    (h : Contiguous state.snapshotIndex.toNat state.log)
    (hok : ∀ next, result = .ok next → state.Keeps next) :
    state.Keeps (state.leave result).1 := by
  cases result with
  | error e => exact .refl h
  | ok next => exact hok next rfl

theorem returned_leave (state : RecoveredState) (result : Except RecordError RecoveredState) :
    returned (state.leave result).1 (state.leave result).2 = result := by
  cases result <;> rfl

theorem Keeps.appendEntry {entry : LogEntry}
    (h : Contiguous state.snapshotIndex.toNat state.log)
    (hok : state.appendEntry entry = .ok next) : state.Keeps next := by
  obtain ⟨hlog, hsame⟩ := appendEntry_contiguous h hok
  exact .of_log hlog hsame

theorem Keeps.applyClusterIdentity {id : Bytes}
    (h : Contiguous state.snapshotIndex.toNat state.log)
    (hok : state.applyClusterIdentity id = .ok next) : state.Keeps next := by
  obtain ⟨hfree, rfl⟩ := applyClusterIdentity_ok hok
  exact ⟨h, rfl, UInt64.le_rfl, UInt64.le_rfl, fun _ _ => rfl,
    fun hnamed => (hfree.resolve_left hnamed).symm, fun _ => rfl, fun hchanged => absurd rfl hchanged⟩

theorem Keeps.applyNodeIdentity {id : Bytes}
    (h : Contiguous state.snapshotIndex.toNat state.log)
    (hok : state.applyNodeIdentity id = .ok next) : state.Keeps next := by
  obtain ⟨hcluster, hfree, rfl⟩ := applyNodeIdentity_ok hok
  exact ⟨h, rfl, UInt64.le_rfl, UInt64.le_rfl, fun _ _ => rfl, fun _ => rfl,
    fun hnamed => (hfree.resolve_left hnamed).symm, fun _ => hcluster⟩

theorem Keeps.applyHardState (hardState : HardState)
    (h : Contiguous state.snapshotIndex.toNat state.log) :
    state.Keeps (state.applyHardState hardState) := by
  rw [RecoveredState.applyHardState]
  split
  · exact .refl h
  next hterm =>
    split
    · exact .refl h
    next hvoted =>
      refine ⟨h, rfl, UInt64.not_lt.mp hterm, UInt64.le_rfl, ?_, fun _ => rfl, fun _ => rfl,
        fun hchanged => absurd rfl hchanged⟩
      exact fun hsame hvote => absurd ⟨hsame, hvote⟩ hvoted

theorem Keeps.applyCommitIndex {index : UInt64}
    (h : Contiguous state.snapshotIndex.toNat state.log)
    (hok : state.applyCommitIndex index = .ok next) : state.Keeps next := by
  rcases applyCommitIndex_ok hok with ⟨-, rfl⟩ | ⟨hlow, rfl⟩
  · exact .refl h
  · exact ⟨h, rfl, UInt64.le_rfl, hlow, fun _ _ => rfl, fun _ => rfl, fun _ => rfl,
      fun hchanged => absurd rfl hchanged⟩

end Keeps

/-! ## Every index is in range -/

theorem takeWhile_eq_take {α : Type} {p : α → Bool} {count : Nat} {items : List α}
    (hbefore : ∀ i item, i < count → items[i]? = some item → p item = true)
    (hafter : ∀ item, items[count]? = some item → p item = false) :
    items.takeWhile p = items.take count := by
  induction items generalizing count with
  | nil => simp
  | cons first items ih =>
      cases count with
      | zero => simp [hafter first rfl]
      | succ count =>
          have hrest : items.takeWhile p = items.take count :=
            ih (fun i item hi hitem => hbefore (i + 1) item (Nat.succ_lt_succ hi)
              (by simpa using hitem)) fun item hitem => hafter item (by simpa using hitem)
          rw [List.takeWhile_cons_of_pos (hbefore 0 first (Nat.succ_pos _) rfl), hrest,
            List.take_succ_cons]

theorem search?_eq {base : Nat} {log : List LogEntry} (from' : UInt64) (i j : Nat)
    (h : Contiguous base log) (hij : i ≤ j) (hj : j ≤ log.length)
    (hbefore : ∀ k entry, k < i → log[k]? = some entry → entry.index < from')
    (hafter : ∀ k entry, j ≤ k → log[k]? = some entry → ¬ entry.index < from') :
    ∃ count ≤ log.length, search? log from' i j = some count ∧
      (log.takeWhile fun entry => entry.index < from') = log.take count := by
  rw [search?]
  split
  next hlt =>
    have hmiddle : (i + j) / 2 < log.length := by omega
    obtain ⟨entry, hentry⟩ : ∃ entry, log[(i + j) / 2]? = some entry :=
      ⟨_, List.getElem?_eq_getElem hmiddle⟩
    have hindex := h.index_eq hentry
    rw [hentry]
    simp only [ge_iff_le]
    split
    next hhigh =>
      refine search?_eq from' i ((i + j) / 2) h (by omega) (by omega) hbefore ?_
      intro k other hk hother
      have hk' := h.index_eq hother
      rw [UInt64.le_iff_toNat_le] at hhigh
      rw [UInt64.lt_iff_toNat_lt]
      omega
    next hlow =>
      refine search?_eq from' ((i + j) / 2 + 1) j h (by omega) hj ?_ hafter
      intro k other hk hother
      have hk' := h.index_eq hother
      rw [UInt64.not_le, UInt64.lt_iff_toNat_lt] at hlow
      rw [UInt64.lt_iff_toNat_lt]
      omega
  next hdone =>
    refine ⟨i, by omega, rfl, takeWhile_eq_take ?_ ?_⟩
    · intro k entry hk hentry
      simpa using hbefore k entry hk hentry
    · intro entry hentry
      simpa using hafter i entry (by omega) hentry
  termination_by j - i

section Left

variable {state : RecoveredState}

def Leaves (state : RecoveredState) (result : Except RecordError RecoveredState)
    (left : Option (RecoveredState × Option RecordError)) : Prop :=
  ∃ next error, left = some (next, error) ∧ result = returned next error ∧ state.Keeps next

theorem leaves_leave {result : Except RecordError RecoveredState}
    (h : Contiguous state.snapshotIndex.toNat state.log)
    (hok : ∀ next, result = .ok next → state.Keeps next) :
    state.Leaves result (some (state.leave result)) :=
  ⟨_, _, rfl, (returned_leave state result).symm, .leave h hok⟩

theorem leaves_error (h : Contiguous state.snapshotIndex.toNat state.log) (e : RecordError) :
    state.Leaves (.error e) (some (state, some e)) :=
  ⟨_, _, rfl, rfl, .refl h⟩

theorem leaves_same (h : Contiguous state.snapshotIndex.toNat state.log) :
    state.Leaves (.ok state) (some (state, none)) :=
  ⟨_, _, rfl, rfl, .refl h⟩

theorem leaves_cut {count : Nat} (h : Contiguous state.snapshotIndex.toNat state.log)
    (hcount : count ≤ state.log.length) :
    state.Leaves (.ok { state with log := state.log.take count })
      ((state.cut? count).map fun next => (next, none)) := by
  rw [cut?, if_pos hcount, Option.map_some]
  exact ⟨_, _, rfl, rfl, .of_log (h.take count) rfl⟩

theorem leaves_entries {width : Nat} {decode : Bytes → Nat → Option LogEntry}
    {pure : Bytes → LogEntry} {payload : Bytes}
    (hdecode : ∀ offset, offset + width ≤ payload.length →
      decode payload offset = some (pure (payload.drop offset)))
    (count : Nat) {offset : Nat} (h : Contiguous state.snapshotIndex.toNat state.log)
    (hcount : offset + count * width ≤ payload.length) :
    state.Leaves (state.appendEntries width pure count (payload.drop offset))
      (state.leaveEntries width decode payload count offset) := by
  induction count generalizing offset state with
  | zero => exact leaves_same h
  | succ count ih =>
      rw [Nat.succ_mul] at hcount
      rw [RecoveredState.appendEntries, leaveEntries, hdecode offset (by omega)]
      simp only
      cases happend : state.appendEntry (pure (payload.drop offset)) with
      | error e => exact leaves_error h e
      | ok next =>
          obtain ⟨hlog, hsame⟩ := appendEntry_contiguous h happend
          have hnext : Contiguous next.snapshotIndex.toNat next.log := by
            rw [hsame]
            exact hlog
          have hrest : offset + width + count * width ≤ payload.length := by omega
          obtain ⟨left, error, hleft, hreturned, hkeeps⟩ := ih hnext hrest
          simp only [List.drop_drop]
          rw [hsame] at hkeeps
          exact ⟨left, error, hleft, hreturned, hkeeps.after_log⟩

theorem leaves_truncation {first : UInt64}
    (h : Contiguous state.snapshotIndex.toNat state.log) :
    state.Leaves (state.applyTruncation first) (state.leaveTruncation first) ∧
      ∀ left ∈ state.leaveTruncation first, state.KeepsCommitted left.1 := by
  have hsame : ∀ error : Option RecordError, ∀ left ∈ some (state, error),
      state.KeepsCommitted left.1 := by
    intro error left hleft entry hentry _
    cases hleft
    exact hentry
  rw [RecoveredState.applyTruncation, leaveTruncation]
  split
  · exact ⟨leaves_error h _, hsame _⟩
  split
  · exact ⟨leaves_same h, hsame _⟩
  next habove =>
    split
    · exact ⟨leaves_error h _, hsame _⟩
    next hinside =>
      split
      · exact ⟨leaves_error h _, hsame _⟩
      next hcommitted =>
        have hover := UInt64.not_le.mp habove
        obtain ⟨hcount, hle⟩ := truncation_count h hover (UInt64.not_lt.mp hinside)
        rw [UInt64.lt_iff_toNat_lt] at hover
        rw [hcount]
        refine ⟨leaves_cut h hle, ?_⟩
        intro left hleft entry hentry hindex
        rw [cut?, if_pos hle] at hleft
        cases hleft
        obtain ⟨i, hi⟩ := List.mem_iff_getElem?.mp hentry
        have hposition := h.index_eq hi
        rw [UInt64.not_le, UInt64.lt_iff_toNat_lt] at hcommitted
        rw [UInt64.le_iff_toNat_le] at hindex
        refine List.mem_iff_getElem?.mpr ⟨i, ?_⟩
        rw [List.getElem?_take_of_lt (by omega), hi]

theorem leaves_checkpoint (checkpoint : CompactionCheckpoint)
    (h : Contiguous state.snapshotIndex.toNat state.log) :
    state.Leaves (state.applyCheckpoint checkpoint) (state.leaveCheckpoint checkpoint) := by
  rw [RecoveredState.applyCheckpoint, leaveCheckpoint]
  split
  · exact leaves_error h _
  split
  · exact leaves_error h _
  split
  · split
    · exact leaves_error h _
    split
    · obtain ⟨count, hcount, hsearch, htake⟩ := search?_eq checkpoint.truncateFrom 0
        state.log.length h (Nat.zero_le _) le_rfl (fun k _ hk _ => absurd hk (Nat.not_lt_zero k))
        fun k entry hk hentry => by simp [List.getElem?_eq_none hk] at hentry
      rw [hsearch, htake, Option.bind_some]
      exact leaves_cut h hcount
    · exact leaves_same h
  · exact leaves_same h

end Left

end RecoveredState

theorem decodeEntryHead?_eq {payload : Bytes} {offset : Nat}
    (h : offset + 17 ≤ payload.length) :
    decodeEntryHead? payload offset = some (decodeEntryHead (payload.drop offset)) := by
  have htype : payload[offset + 16]? = some ((slice (payload.drop offset) 16 17).headD 0) := by
    have hlt : offset + 16 < payload.length := by omega
    rw [slice_drop, slice, List.getElem?_eq_getElem hlt, List.drop_eq_getElem_cons hlt,
      Nat.add_sub_add_left, List.take_succ_cons]
    rfl
  rw [decodeEntryHead?, uint64?_eq (by omega) (by omega), uint64?_eq (by omega) (by omega),
    htype, decodeEntryHead]
  simp only [slice_drop]
  rfl

theorem decodeEntryV2?_eq {payload : Bytes} {offset : Nat} (h : offset + 33 ≤ payload.length) :
    decodeEntryV2? payload offset = some (decodeEntryV2 (payload.drop offset)) := by
  rw [decodeEntryV2?, decodeEntryHead?_eq (by omega), slice?_eq (by omega) (by omega),
    decodeEntryV2, slice_drop]
  rfl

theorem decodeEntryV3?_eq {payload : Bytes} {keyLength : UInt32} (hhead : 49 ≤ payload.length)
    (hkey : keyLength = uint32 (slice payload 41 45))
    (hlength : 49 + keyLength.toNat ≤ payload.length) (hsize : payload.length < 2 ^ 32) :
    decodeEntryV3? payload keyLength = some (decodeEntryV3 payload) := by
  have hbound : (49 + keyLength).toNat = 49 + keyLength.toNat := by
    rw [UInt32.toNat_add]
    simp only [UInt32.reduceToNat]
    omega
  have hvalue : slice payload (49 + keyLength.toNat) payload.length =
      payload.drop (49 + keyLength.toNat) := by
    rw [slice, List.take_of_length_le (by simp)]
  rw [decodeEntryV3?, hbound, decodeEntryHead?_eq (by omega), uint64?_eq (by omega) (by omega),
    slice?_eq (by omega) hlength, slice?_eq hlength le_rfl, slice?_eq (by omega) (by omega),
    hvalue, decodeEntryV3, ← hkey, decodeEntryV2]
  rfl

theorem replayRecord_leaves (json : CheckpointJSON) (kind : UInt8) {payload : Bytes}
    {state : RecoveredState} (h : Contiguous state.snapshotIndex.toNat state.log)
    (hsize : payload.length < 2 ^ 32) :
    state.Leaves (applyRecord json kind payload state) (replayRecord json kind payload state) := by
  rw [applyRecord, replayRecord]
  cases RecordType.ofByte? kind with
  | none => exact RecoveredState.leaves_error h _
  | some kind =>
      cases kind with
      | clusterIdentity => exact RecoveredState.leaves_leave h fun _ hok => .applyClusterIdentity h hok
      | nodeIdentity => exact RecoveredState.leaves_leave h fun _ hok => .applyNodeIdentity h hok
      | hardState =>
          simp only
          split
          · exact RecoveredState.leaves_error h _
          split
          · exact RecoveredState.leaves_error h _
          · have hvoted : slice payload 8 payload.length = payload.drop 8 := by
              rw [slice, List.take_of_length_le (by simp)]
            rw [uint64?_eq (by omega) (by omega), slice?_eq (by omega) le_rfl, hvoted]
            exact ⟨_, _, rfl, rfl, .applyHardState _ h⟩
      | logEntries =>
          simp only
          split
          · exact RecoveredState.leaves_error h _
          · exact RecoveredState.leaves_entries (fun _ => decodeEntryHead?_eq) _ h (by omega)
      | logEntriesV2 =>
          simp only
          split
          · exact RecoveredState.leaves_error h _
          · exact RecoveredState.leaves_entries (fun _ => decodeEntryV2?_eq) _ h (by omega)
      | logEntryV3 =>
          simp only
          split
          · exact RecoveredState.leaves_error h _
          · rw [uint32?_eq (by omega) (by omega), uint32?_eq (by omega) (by omega)]
            simp only [Option.bind_eq_bind, Option.bind_some]
            split
            · exact RecoveredState.leaves_error h _
            · rw [decodeEntryV3?_eq (by omega) rfl (by omega) hsize]
              exact RecoveredState.leaves_leave h fun _ hok => .appendEntry h hok
      | logTruncation =>
          simp only
          split
          · exact RecoveredState.leaves_error h _
          · have hwhole : slice payload 0 8 = payload := by
              rw [slice, List.drop_zero, List.take_of_length_le (by omega)]
            rw [uint64?_eq (by omega) (by omega), hwhole]
            exact (RecoveredState.leaves_truncation h).1
      | commitIndex =>
          simp only
          split
          · exact RecoveredState.leaves_error h _
          · have hwhole : slice payload 0 8 = payload := by
              rw [slice, List.drop_zero, List.take_of_length_le (by omega)]
            rw [uint64?_eq (by omega) (by omega), hwhole]
            exact RecoveredState.leaves_leave h fun _ hok => .applyCommitIndex h hok
      | compactionCheckpoint =>
          simp only
          cases json.unmarshal payload with
          | none => exact RecoveredState.leaves_error h _
          | some checkpoint => exact RecoveredState.leaves_checkpoint checkpoint h

/-- The truncation record, at the one place where entries are dropped on request. -/
theorem replayRecord_truncation (json : CheckpointJSON) {payload : Bytes}
    {state : RecoveredState} {left : RecoveredState × Option RecordError}
    (h : Contiguous state.snapshotIndex.toNat state.log)
    (hleft : replayRecord json RecordType.logTruncation.toByte payload state = some left) :
    state.KeepsCommitted left.1 := by
  simp only [replayRecord, RecordType.ofByte?_toByte] at hleft
  split at hleft
  · cases hleft
    exact fun _ hentry _ => hentry
  · obtain ⟨first, -, hfirst⟩ := Option.bind_eq_some_iff.mp hleft
    exact (RecoveredState.leaves_truncation h).2 left hfirst

theorem replayRecords_keeps (json : CheckpointJSON) {records : List (UInt8 × Bytes)}
    {state : RecoveredState} (h : Contiguous state.snapshotIndex.toNat state.log)
    (hsize : ∀ record ∈ records, record.2.length < 2 ^ 32) :
    ∃ final, replayRecords json state records = some final ∧
      Contiguous final.snapshotIndex.toNat final.log := by
  induction records generalizing state with
  | nil => exact ⟨state, rfl, h⟩
  | cons record records ih =>
      obtain ⟨kind, payload⟩ := record
      obtain ⟨next, error, hleft, -, hkeeps⟩ :=
        replayRecord_leaves json kind h (hsize (kind, payload) List.mem_cons_self)
      rw [replayRecords, hleft]
      exact ih hkeeps.contiguous fun record hrecord =>
        hsize record (List.mem_cons_of_mem _ hrecord)

/-! ## Results -/

/--
Whatever records come before it, a record whose payload is shorter than four
gigabytes indexes nothing out of range; accepted or refused, it leaves a log that
is contiguous from the same Snapshot, and moves no durable fact back.
-/
theorem replay_well_formed (json : CheckpointJSON) {state : RecoveredState}
    {records : List (UInt8 × Bytes)} (h : Contiguous state.snapshotIndex.toNat state.log)
    (hsize : ∀ record ∈ records, record.2.length < 2 ^ 32)
    {before after : List (UInt8 × Bytes)} {kind : UInt8} {payload : Bytes}
    (hrecords : records = before ++ (kind, payload) :: after) :
    ∃ middle left error, replayRecords json state before = some middle ∧
      replayRecord json kind payload middle = some (left, error) ∧
      applyRecord json kind payload middle = returned left error ∧
      middle.Keeps left ∧
      (kind = RecordType.logTruncation.toByte → middle.KeepsCommitted left) := by
  subst hrecords
  obtain ⟨middle, hmiddle, hcontiguous⟩ := replayRecords_keeps json h fun record hrecord =>
    hsize record (List.mem_append_left _ hrecord)
  obtain ⟨left, error, hleft, hreturned, hkeeps⟩ :=
    replayRecord_leaves json kind hcontiguous (hsize (kind, payload) (by simp))
  refine ⟨middle, left, error, hmiddle, hleft, hreturned, hkeeps, ?_⟩
  rintro rfl
  exact replayRecord_truncation json hcontiguous hleft

def sampleRecords : List (UInt8 × Bytes) :=
  [(6, encodeEntryV3 (sampleEntry 1 1)), (9, []), (7, putUint64 1)]

theorem replay_well_formed_sample : ∃ middle left error,
    replayRecords escapedCheckpoints {} (sampleRecords.take 2) = some middle ∧
    replayRecord escapedCheckpoints 7 (putUint64 1) middle = some (left, error) ∧
    middle.KeepsCommitted left := by
  have hempty : Contiguous ({} : RecoveredState).snapshotIndex.toNat
      ({} : RecoveredState).log := trivial
  have hsplit : sampleRecords = sampleRecords.take 2 ++ (7, putUint64 1) :: [] := rfl
  obtain ⟨middle, left, error, hmiddle, hleft, -, -, hkept⟩ :=
    replay_well_formed escapedCheckpoints hempty (by decide) hsplit
  exact ⟨middle, left, error, hmiddle, hleft, hkept rfl⟩

/-- A payload whose key would end at byte `2 ^ 32 + 48`, which is 48 in 32 bits. -/
def wrappedPayload (key : Bytes) : Bytes :=
  List.replicate 41 0 ++ (putUint32 4294967295 ++ (putUint32 0 ++ key))

theorem replayRecord_wrapped (json : CheckpointJSON) (state : RecoveredState) {key : Bytes}
    (hkey : key.length = 4294967295) :
    replayRecord json RecordType.logEntryV3.toByte (wrappedPayload key) state = none := by
  have hlength : (wrappedPayload key).length = 49 + 4294967295 := by
    simp only [wrappedPayload, List.length_append, List.length_replicate, putUint32_length, hkey]
  have hkeyField : slice (wrappedPayload key) 41 45 = putUint32 4294967295 :=
    slice_field (List.replicate 41 0) _ _ rfl (List.length_replicate ..) (by simp)
  have hvalueField : slice (wrappedPayload key) 45 49 = putUint32 0 :=
    slice_field (List.replicate 41 0 ++ putUint32 4294967295) _ key
      (by rw [wrappedPayload, List.append_assoc]) (by simp) (by simp)
  -- 49 + 4294967295 is 48, so the slice of the key ends before it starts.
  have hend : ((49 : UInt32) + 4294967295).toNat = 48 := by decide
  have hpanic : slice? (wrappedPayload key) 49 48 = none := if_neg (by omega)
  generalize wrappedPayload key = payload at hlength hkeyField hvalueField hpanic ⊢
  simp only [replayRecord, RecordType.ofByte?_toByte]
  rw [if_neg (by omega), uint32?_eq (by omega) (by omega), uint32?_eq (by omega) (by omega),
    hkeyField, hvalueField, uint32_putUint32, uint32_putUint32]
  simp only [Option.bind_eq_bind, Option.bind_some]
  rw [if_neg (by rw [hlength]; decide), decodeEntryV3?, hend, hpanic,
    decodeEntryHead?_eq (by omega), uint64?_eq (by omega) (by omega)]
  rfl

/-- Four gigabytes and 49 bytes make `applyRecord` slice out of range. -/
theorem replay_wraps : ∃ payload, ∀ json : CheckpointJSON,
    Contiguous ({} : RecoveredState).snapshotIndex.toNat ({} : RecoveredState).log ∧
      replayRecord json RecordType.logEntryV3.toByte payload {} = none :=
  ⟨wrappedPayload (List.replicate 4294967295 0), fun json =>
    ⟨trivial, replayRecord_wrapped json {} List.length_replicate⟩⟩

end QuorumKV.Wal
