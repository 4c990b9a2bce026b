import QuorumKV.Wal.Frames

/-!
# The two readers of a segment

`readSegment` replays a segment and `scanSegmentFrames` visits its frames; the
source writes the two loops separately.  With the processing of a record as a
parameter, both hand the same frames over, in the same order, up to the same
end, whatever the bytes are.
-/

namespace QuorumKV.Wal

open Foundation
open QuorumKV.Raft (Bytes)

/-! ## The frames of a segment -/

/-- What a frame loop finds at the head of the remaining bytes. -/
inductive Head where
  | done
  | broken
  | frame (f : Frame) (size : Nat)

def head (final : Bool) (rest : Bytes) : Head :=
  if rest = [] then .done
  else if rest.length < frameHeaderSize then if final then .done else .broken
  else
    let length := (uint32 (slice rest 0 4)).toNat
    if length = 0 ∨ length > maxRecordSize then .broken
    else if rest.length < frameHeaderSize + length then if final then .done else .broken
    else
      let body := slice rest frameHeaderSize (frameHeaderSize + length)
      if checksumIEEE body ≠ uint32 (slice rest 4 8) then
        if final && rest.length == frameHeaderSize + length then .done else .broken
      else .frame ⟨body.headD 0, body.tail⟩ (frameHeaderSize + length)

theorem head_frame {final : Bool} {rest : Bytes} {f : Frame} {size : Nat}
    (h : head final rest = .frame f size) : rest ≠ [] ∧ 0 < size := by
  unfold head at h
  split at h
  · simp at h
  next hnil =>
    refine ⟨hnil, ?_⟩
    split at h
    · split at h <;> simp at h
    · dsimp only at h
      split at h
      · simp at h
      · split at h
        · split at h <;> simp at h
        · split at h
          · split at h <;> simp at h
          · obtain ⟨-, rfl⟩ := Head.frame.inj h
            simp [frameHeaderSize]

def framesOf (final : Bool) (rest : Bytes) : List Frame × Bool :=
  match _hhead : head final rest with
  | .done => ([], true)
  | .broken => ([], false)
  | .frame f size =>
      let others := framesOf final (rest.drop size)
      (f :: others.1, others.2)
  termination_by rest.length
  decreasing_by
    obtain ⟨hnil, hsize⟩ := head_frame _hhead
    have hlength := List.length_pos_iff.mpr hnil
    simp only [List.length_drop]
    omega

def segmentFrames (contents : Bytes) (final : Bool) : List Frame × Bool :=
  if contents.length < segmentHeaderSize ∨ slice contents 0 8 ≠ segmentMagic ∨
      uint32 (slice contents 8 12) ≠ formatVersion then ([], false)
  else framesOf final (contents.drop segmentHeaderSize)

section Processing

variable {α ε : Type}

def handOver (process : α → UInt8 → Bytes → Except ε α) (processed : α) :
    List Frame → Bool → Except (Option ε) α
  | [], whole => if whole then .ok processed else .error none
  | f :: frames, whole =>
      match process processed f.kind f.payload with
      | .error e => .error (some e)
      | .ok processed => handOver process processed frames whole

/-- How `readSegment` ends: with what was processed, its own error, or the processing's. -/
def readOutcome {β : Type} : Except (ReadError ε) (α × β) → Except (Option ε) α
  | .ok read => .ok read.1
  | .error (.record _ e) => .error (some e)
  | .error _ => .error none

def scanOutcome : Except (ScanError ε) α → Except (Option ε) α
  | .ok visited => .ok visited
  | .error (.visit e) => .error (some e)
  | .error _ => .error none

def Head.outcome (process : α → UInt8 → Bytes → Except ε α) (processed : α)
    (next : Nat → α → Except (Option ε) α) : Head → Except (Option ε) α
  | .done => .ok processed
  | .broken => .error none
  | .frame f size =>
      match process processed f.kind f.payload with
      | .error e => .error (some e)
      | .ok processed => next size processed

variable (process : α → UInt8 → Bytes → Except ε α)

theorem readFramesWith_head (final : Bool) (offset : Nat) (rest : Bytes) (processed : α) :
    readOutcome (readFramesWith process final offset rest processed) =
      (head final rest).outcome process processed fun size processed =>
        readOutcome (readFramesWith process final (offset + size) (rest.drop size) processed) := by
  rw [readFramesWith, head]
  split
  · rfl
  split
  · split <;> rfl
  dsimp only
  split
  next hzero =>
    rw [if_pos (Or.inl hzero)]
    rfl
  next hzero =>
    split
    next hlarge =>
      rw [if_pos (Or.inr hlarge)]
      rfl
    next hlarge =>
      rw [if_neg (not_or.mpr ⟨hzero, hlarge⟩)]
      split
      · split <;> rfl
      · split
        · split <;> rfl
        · rw [Nat.add_assoc, Head.outcome]
          cases process processed _ _ <;> rfl

theorem scanFrames_head (final : Bool) (offset : Nat) (rest : Bytes) (visited : α) :
    scanOutcome (scanFrames final process offset rest visited) =
      (head final rest).outcome process visited fun size visited =>
        scanOutcome (scanFrames final process (offset + size) (rest.drop size) visited) := by
  rw [scanFrames, head]
  split
  · rfl
  split
  · split <;> rfl
  dsimp only
  split
  · rfl
  · split
    · split <;> rfl
    · split
      · split <;> rfl
      · rw [Nat.add_assoc, Head.outcome]
        cases process visited _ _ <;> rfl

theorem handOver_framesOf (final : Bool) (loop : Nat → Bytes → α → Except (Option ε) α)
    (hloop : ∀ offset rest processed, loop offset rest processed =
      (head final rest).outcome process processed fun size processed =>
        loop (offset + size) (rest.drop size) processed)
    (offset : Nat) (rest : Bytes) (processed : α) :
    loop offset rest processed =
      handOver process processed (framesOf final rest).1 (framesOf final rest).2 := by
  induction hlength : rest.length using Nat.strong_induction_on
    generalizing offset rest processed with
  | _ length ih =>
      subst hlength
      rw [hloop, framesOf]
      split
      next hdone => rw [hdone, Head.outcome, handOver, if_pos rfl]
      next hbroken => simp only [hbroken, Head.outcome, handOver, Bool.false_eq_true, if_false]
      next f size hframe =>
        obtain ⟨hnil, hsize⟩ := head_frame hframe
        have hpos := List.length_pos_iff.mpr hnil
        rw [hframe, Head.outcome, handOver]
        cases process processed f.kind f.payload with
        | error e => rfl
        | ok processed => exact ih _ (by simp only [List.length_drop]; omega) _ _ _ rfl

theorem readSegmentWith_handOver (contents : Bytes) (final : Bool) (processed : α) :
    readOutcome (readSegmentWith process contents final processed) =
      handOver process processed (segmentFrames contents final).1
        (segmentFrames contents final).2 := by
  rw [readSegmentWith, segmentFrames]
  split
  next hshort =>
    rw [if_pos (Or.inl hshort)]
    rfl
  next hshort =>
    split
    next hmagic =>
      rw [if_pos (Or.inr (Or.inl hmagic))]
      rfl
    next hmagic =>
      split
      next hversion =>
        rw [if_pos (Or.inr (Or.inr hversion))]
        rfl
      next hversion =>
        rw [if_neg (not_or.mpr ⟨hshort, not_or.mpr ⟨hmagic, hversion⟩⟩)]
        rw [← handOver_framesOf process final
          (fun offset rest processed => readOutcome (readFramesWith process final offset rest processed))
          (readFramesWith_head process final) segmentHeaderSize]
        cases readFramesWith process final segmentHeaderSize (contents.drop segmentHeaderSize)
          processed with
        | error e => cases e <;> rfl
        | ok read => rfl

theorem scanSegmentFrames_handOver (contents : Bytes) (final : Bool) (visited : α) :
    scanOutcome (scanSegmentFrames contents final process visited) =
      handOver process visited (segmentFrames contents final).1
        (segmentFrames contents final).2 := by
  have htake : contents.take 8 = slice contents 0 8 := rfl
  rw [scanSegmentFrames, segmentFrames, htake]
  split
  next hshort =>
    rw [if_pos (Or.inl hshort)]
    rfl
  next hshort =>
    split
    next hmagic =>
      rw [if_pos (Or.inr (Or.inl hmagic))]
      rfl
    next hmagic =>
      split
      next hversion =>
        rw [if_pos (Or.inr (Or.inr hversion))]
        rfl
      next hversion =>
        rw [if_neg (not_or.mpr ⟨hshort, not_or.mpr ⟨hmagic, hversion⟩⟩)]
        exact handOver_framesOf process final
          (fun offset rest visited => scanOutcome (scanFrames final process offset rest visited))
          (scanFrames_head process final) segmentHeaderSize _ visited

end Processing

/--
Both readers hand the frames of the segment to whatever processes them, in
order, and go on as long as it does not fail; behind the last frame both succeed
or both fail.  `readSegment` is such a reader with `applyRecord` as processing.
-/
theorem readers_agree (contents : Bytes) (final : Bool) :
    (∀ (α ε : Type) (process : α → UInt8 → Bytes → Except ε α) (processed : α),
      readOutcome (readSegmentWith process contents final processed) =
        handOver process processed (segmentFrames contents final).1
          (segmentFrames contents final).2 ∧
      scanOutcome (scanSegmentFrames contents final process processed) =
        handOver process processed (segmentFrames contents final).1
          (segmentFrames contents final).2) ∧
    ∀ (json : CheckpointJSON) (state : RecoveredState),
      readSegment json contents final state =
        readSegmentWith (fun state kind payload => applyRecord json kind payload state) contents
          final state :=
  ⟨fun _ _ process processed => ⟨readSegmentWith_handOver process contents final processed,
    scanSegmentFrames_handOver process contents final processed⟩, fun _ _ => rfl⟩

end QuorumKV.Wal
