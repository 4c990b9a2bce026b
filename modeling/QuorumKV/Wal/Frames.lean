import QuorumKV.Wal.History

/-!
# Frames, whole and torn

Below the level of records a segment file is a header and a list of frames.
Both readers walk such a file alike, and both stop alike at an interrupted final
frame, so a torn file reads as the complete frames in front of the tear.  Nothing
here depends on what the frames say: every file the WAL writes is covered,
whatever its history.
-/

namespace QuorumKV.Wal

open Foundation
open QuorumKV.Raft (Bytes)

structure Frame where
  kind : UInt8
  payload : Bytes

namespace Frame

def bytes (f : Frame) : Bytes := frame f.kind f.payload

def Sized (f : Frame) : Prop := f.payload.length + 1 ≤ maxRecordSize

theorem bytes_length (f : Frame) :
    f.bytes.length = frameHeaderSize + (f.payload.length + 1) := by
  rw [bytes, frame_length]
  omega

end Frame

def framedSegment (frames : List Frame) : Bytes := segmentHeader ++ frames.flatMap Frame.bytes

/-- What an interrupted write leaves after the complete frames: part of one frame. -/
def Torn (rest : Bytes) : Prop :=
  ∃ f : Frame, f.Sized ∧ ∃ size < f.bytes.length, rest = f.bytes.take size

theorem torn_nil : Torn [] :=
  ⟨⟨0, []⟩, by simp [Frame.Sized, maxRecordSize], 0, by simp [Frame.bytes_length], rfl⟩

def completeFrames : Nat → List Frame → List Frame
  | _, [] => []
  | size, f :: frames =>
      if f.bytes.length ≤ size then f :: completeFrames (size - f.bytes.length) frames else []

theorem completeFrames_subset (size : Nat) (frames : List Frame) :
    completeFrames size frames ⊆ frames := by
  induction frames generalizing size with
  | nil => simp [completeFrames]
  | cons f frames ih =>
      rw [completeFrames]
      split
      · exact List.cons_subset_cons f (ih _)
      · simp

theorem take_frames (size : Nat) {frames : List Frame} (hsized : ∀ f ∈ frames, f.Sized) :
    ∃ torn, Torn torn ∧ (frames.flatMap Frame.bytes).take size =
      (completeFrames size frames).flatMap Frame.bytes ++ torn := by
  induction frames generalizing size with
  | nil => exact ⟨[], torn_nil, by simp [completeFrames]⟩
  | cons f frames ih =>
      rw [completeFrames, List.flatMap_cons]
      split
      next hwhole =>
        obtain ⟨torn, htorn, heq⟩ := ih (size - f.bytes.length) fun g hg => hsized g (by simp [hg])
        refine ⟨torn, htorn, ?_⟩
        rw [List.take_append, List.take_of_length_le hwhole, heq]
        simp
      next hpart =>
        refine ⟨f.bytes.take size, ⟨f, hsized f (by simp), size, by omega, rfl⟩, ?_⟩
        rw [List.take_append_of_le_length (by omega)]
        simp

/-! ## Reading frames -/

def applyFrames (json : CheckpointJSON) (offset : Nat) (state : RecoveredState) :
    List Frame → Except SegmentError (RecoveredState × Nat)
  | [] => .ok (state, offset)
  | f :: frames =>
      match applyRecord json f.kind f.payload state with
      | .error e => .error (.record offset e)
      | .ok state => applyFrames json (offset + f.bytes.length) state frames

def visitFrames {α ε : Type} (visit : α → UInt8 → Bytes → Except ε α) (visited : α) :
    List Frame → Except (ScanError ε) α
  | [] => .ok visited
  | f :: frames =>
      match visit visited f.kind f.payload with
      | .error e => .error (.visit e)
      | .ok visited => visitFrames visit visited frames

section Reading

variable {json : CheckpointJSON} {frames : List Frame} {torn : Bytes}

theorem torn_length_field {f : Frame} (hsized : f.Sized) {size : Nat}
    (hheader : frameHeaderSize ≤ size) :
    (uint32 (slice (f.bytes.take size) 0 4)).toNat = f.payload.length + 1 := by
  have hhead := frame_head f.kind [] hsized
  rw [List.append_nil] at hhead
  have hsame : slice (f.bytes.take size) 0 4 = slice f.bytes 0 4 := by
    simp only [slice, List.drop_zero, List.take_take, frameHeaderSize] at hheader ⊢
    congr 1
    omega
  rw [hsame]
  exact hhead.size

theorem readFrames_torn (json : CheckpointJSON) (htorn : Torn torn) (offset : Nat)
    (state : RecoveredState) : readFrames json true offset torn state = .ok (state, offset) := by
  obtain ⟨f, hsized, size, hsize, rfl⟩ := htorn
  have hlength : (f.bytes.take size).length = size := by
    rw [List.length_take]
    omega
  rw [readFrames, readFramesWith]
  split
  · rfl
  · rw [hlength]
    split
    · simp
    next hheader =>
      have hfield := torn_length_field hsized (Nat.not_lt.mp hheader)
      have hbound : f.payload.length + 1 ≤ maxRecordSize := hsized
      rw [f.bytes_length] at hsize
      simp only [hfield]
      rw [if_neg (by omega), if_neg (by omega), if_pos hsize]
      simp

theorem scanFrames_torn {α ε : Type} (visit : α → UInt8 → Bytes → Except ε α)
    (htorn : Torn torn) (offset : Nat) (visited : α) :
    scanFrames true visit offset torn visited = .ok visited := by
  obtain ⟨f, hsized, size, hsize, rfl⟩ := htorn
  have hlength : (f.bytes.take size).length = size := by
    rw [List.length_take]
    omega
  rw [scanFrames]
  split
  · rfl
  · rw [hlength]
    split
    · simp
    next hheader =>
      have hfield := torn_length_field hsized (Nat.not_lt.mp hheader)
      have hbound : f.payload.length + 1 ≤ maxRecordSize := hsized
      rw [f.bytes_length] at hsize
      simp only [hfield]
      rw [if_neg (by omega), if_pos hsize]
      simp

def Ends (final : Bool) (torn : Bytes) : Prop := torn = [] ∨ (final = true ∧ Torn torn)

theorem readFrames_frames (hsized : ∀ f ∈ frames, f.Sized) {final : Bool}
    (hends : Ends final torn) (offset : Nat) (state : RecoveredState) :
    readFrames json final offset (frames.flatMap Frame.bytes ++ torn) state =
      applyFrames json offset state frames := by
  induction frames generalizing offset state with
  | nil =>
      rcases hends with rfl | ⟨rfl, htorn⟩
      · simp [readFrames, readFramesWith, applyFrames]
      · exact readFrames_torn json htorn offset state
  | cons f frames ih =>
      rw [List.flatMap_cons, List.append_assoc, Frame.bytes,
        readFrames_frame json final offset f.kind _ state (hsized f (by simp)), applyFrames]
      cases applyRecord json f.kind f.payload state with
      | error e => rfl
      | ok next =>
          simp only
          rw [ih (fun g hg => hsized g (by simp [hg])), f.bytes_length, Nat.add_assoc]

theorem scanFrames_frames {α ε : Type} {visit : α → UInt8 → Bytes → Except ε α}
    (hsized : ∀ f ∈ frames, f.Sized) {final : Bool} (hends : Ends final torn)
    (offset : Nat) (visited : α) :
    scanFrames final visit offset (frames.flatMap Frame.bytes ++ torn) visited =
      visitFrames visit visited frames := by
  induction frames generalizing offset visited with
  | nil =>
      rcases hends with rfl | ⟨rfl, htorn⟩
      · simp [scanFrames, visitFrames]
      · exact scanFrames_torn visit htorn offset visited
  | cons f frames ih =>
      rw [List.flatMap_cons, List.append_assoc, Frame.bytes,
        scanFrames_frame final visit offset f.kind _ visited (hsized f (by simp)), visitFrames]
      cases visit visited f.kind f.payload with
      | error e => rfl
      | ok next => exact ih (fun g hg => hsized g (by simp [hg])) _ next

theorem applyFrames_offset {offset : Nat} {state : RecoveredState}
    {reached : RecoveredState × Nat} (h : applyFrames json offset state frames = .ok reached) :
    reached.2 = offset + (frames.flatMap Frame.bytes).length := by
  induction frames generalizing offset state with
  | nil =>
      cases h
      simp
  | cons f frames ih =>
      rw [applyFrames] at h
      split at h
      · simp at h
      · rw [ih h, List.flatMap_cons, List.length_append]
        omega

theorem readSegment_frames (json : CheckpointJSON) (hsized : ∀ f ∈ frames, f.Sized)
    (final : Bool) (hends : Ends final torn) (state : RecoveredState) :
    readSegment json (framedSegment frames ++ torn) final state =
      match applyFrames json segmentHeaderSize state frames with
      | .error e => .error e
      | .ok reached => .ok (reached.1, framedSegment frames) := by
  have hfile : framedSegment frames ++ torn =
      segmentHeader ++ (frames.flatMap Frame.bytes ++ torn) := List.append_assoc ..
  obtain ⟨hlength, hmagic, hversion, hdrop⟩ := segmentHeader_head
    (frames.flatMap Frame.bytes ++ torn)
  rw [hfile, readSegment, readSegmentWith, if_neg hlength]
  simp only [hmagic, hversion, hdrop, ne_eq, not_true, if_false]
  rw [← readFrames, readFrames_frames hsized hends]
  cases happly : applyFrames json segmentHeaderSize state frames with
  | error e => rfl
  | ok reached =>
      have hsize : reached.2 = (framedSegment frames).length := by
        rw [applyFrames_offset happly, framedSegment, List.length_append, segmentHeader_length]
      simp only
      rw [hsize, ← hfile, List.take_left']
      rfl

theorem scanSegmentFrames_frames {α ε : Type} (visit : α → UInt8 → Bytes → Except ε α)
    (hsized : ∀ f ∈ frames, f.Sized) (final : Bool) (hends : Ends final torn) (visited : α) :
    scanSegmentFrames (framedSegment frames ++ torn) final visit visited =
      visitFrames visit visited frames := by
  have hfile : framedSegment frames ++ torn =
      segmentHeader ++ (frames.flatMap Frame.bytes ++ torn) := List.append_assoc ..
  obtain ⟨hlength, hmagic, hversion, hdrop⟩ := segmentHeader_head
    (frames.flatMap Frame.bytes ++ torn)
  have htake : (segmentHeader ++ (frames.flatMap Frame.bytes ++ torn)).take 8 =
      segmentMagic := by
    simpa [slice] using hmagic
  rw [hfile, scanSegmentFrames, if_neg hlength]
  simp only [htake, hversion, hdrop, ne_eq, not_true, if_false]
  exact scanFrames_frames hsized hends segmentHeaderSize visited

theorem framedSegment_take {size : Nat} (hsized : ∀ f ∈ frames, f.Sized)
    (hheader : segmentHeaderSize ≤ size) :
    ∃ torn, Torn torn ∧ (framedSegment frames).take size =
      framedSegment (completeFrames (size - segmentHeaderSize) frames) ++ torn := by
  obtain ⟨torn, htorn, heq⟩ := take_frames (size - segmentHeaderSize) hsized
  refine ⟨torn, htorn, ?_⟩
  rw [framedSegment, List.take_append, segmentHeader_length, heq,
    List.take_of_length_le (by rw [segmentHeader_length]; exact hheader), framedSegment,
    List.append_assoc]

end Reading

/-! ## Whole directories -/

inductive Framed : List Segment → List Frame → Prop
  | nil : Framed [] []
  | cons {number : Nat} {frames rest : List Frame} {segments : List Segment}
      (hsized : ∀ f ∈ frames, f.Sized) (hrest : Framed segments rest) :
      Framed (⟨number, framedSegment frames⟩ :: segments) (frames ++ rest)

theorem Framed.append {left right : List Segment} {before after : List Frame}
    (hleft : Framed left before) (hright : Framed right after) :
    Framed (left ++ right) (before ++ after) := by
  induction hleft with
  | nil => exact hright
  | cons hsized _ ih =>
      rw [List.append_assoc]
      exact .cons hsized ih

theorem Framed.single (number : Nat) {frames : List Frame} (hsized : ∀ f ∈ frames, f.Sized) :
    Framed [⟨number, framedSegment frames⟩] frames := by
  have hcons : Framed (⟨number, framedSegment frames⟩ :: []) (frames ++ []) := .cons hsized .nil
  rwa [List.append_nil] at hcons

def visitSegments {α ε : Type} (visit : α → UInt8 → Bytes → Except ε α) (visited : α) :
    List Segment → Except (ScanError ε) α
  | [] => .ok visited
  | segment :: segments =>
      match scanSegmentFrames segment.contents segments.isEmpty visit visited with
      | .error e => .error e
      | .ok visited => visitSegments visit visited segments

theorem newestCompactionCheckpoint_eq (json : CheckpointJSON) (found : CompactionCheckpoint)
    (segments : List Segment) :
    newestCompactionCheckpoint json found segments =
      visitSegments (visitCheckpoint json) found segments := by
  induction segments generalizing found with
  | nil => rfl
  | cons segment segments ih =>
      simp only [newestCompactionCheckpoint, visitSegments]
      cases scanSegmentFrames segment.contents segments.isEmpty (visitCheckpoint json) found with
      | error e => rfl
      | ok next => exact ih next

def replayFrames (json : CheckpointJSON) (state : RecoveredState) :
    List Frame → Except RecordError RecoveredState
  | [] => .ok state
  | f :: frames =>
      match applyRecord json f.kind f.payload state with
      | .error e => .error e
      | .ok state => replayFrames json state frames

section Directory

variable {json : CheckpointJSON} {frames rest : List Frame} {segments : List Segment}

theorem replayFrames_append (state : RecoveredState) (frames rest : List Frame) :
    replayFrames json state (frames ++ rest) =
      match replayFrames json state frames with
      | .error e => .error e
      | .ok state => replayFrames json state rest := by
  induction frames generalizing state with
  | nil => rfl
  | cons f frames ih =>
      simp only [List.cons_append, replayFrames]
      cases applyRecord json f.kind f.payload state with
      | error e => rfl
      | ok next => exact ih next

theorem visitFrames_append {α ε : Type} (visit : α → UInt8 → Bytes → Except ε α) (visited : α)
    (frames rest : List Frame) :
    visitFrames visit visited (frames ++ rest) =
      match visitFrames visit visited frames with
      | .error e => .error e
      | .ok visited => visitFrames visit visited rest := by
  induction frames generalizing visited with
  | nil => rfl
  | cons f frames ih =>
      simp only [List.cons_append, visitFrames]
      cases visit visited f.kind f.payload with
      | error e => rfl
      | ok next => exact ih next

theorem applyFrames_ok (json : CheckpointJSON) (frames : List Frame) (offset : Nat)
    (state state' : RecoveredState) :
    (∃ size, applyFrames json offset state frames = .ok (state', size)) ↔
      replayFrames json state frames = .ok state' := by
  induction frames generalizing offset state with
  | nil => simp [applyFrames, replayFrames]
  | cons f frames ih =>
      simp only [applyFrames, replayFrames]
      cases applyRecord json f.kind f.payload state with
      | error e => simp
      | ok next => exact ih _ next

theorem visitSegments_framed {α ε : Type} (visit : α → UInt8 → Bytes → Except ε α)
    (hframed : Framed segments frames) (found : α) :
    visitSegments visit found segments = visitFrames visit found frames := by
  induction hframed generalizing found with
  | nil => rfl
  | @cons number frames rest segments hsized _ ih =>
      have hscan := scanSegmentFrames_frames visit hsized segments.isEmpty (.inl rfl) found
      rw [List.append_nil] at hscan
      simp only [visitSegments]
      rw [hscan, visitFrames_append]
      cases visitFrames visit found frames with
      | error e => rfl
      | ok next => exact ih next

theorem readSegments_framed (hframed : Framed segments frames) (state state' : RecoveredState)
    (files : List Segment) :
    readSegments json state segments = .ok (state', files) ↔
      files = segments ∧ replayFrames json state frames = .ok state' := by
  induction hframed generalizing state state' files with
  | nil => simp [readSegments, replayFrames, eq_comm, and_comm]
  | @cons number frames rest segments hsized _ ih =>
      have hread := readSegment_frames json hsized segments.isEmpty (.inl rfl) state
      rw [List.append_nil] at hread
      have hreplay := applyFrames_ok json frames segmentHeaderSize state
      simp only [readSegments]
      rw [hread, replayFrames_append]
      cases happly : applyFrames json segmentHeaderSize state frames with
      | error e =>
          have hnone : ∀ next, replayFrames json state frames ≠ .ok next := by
            intro next hnext
            obtain ⟨size, hsize⟩ := (hreplay next).mpr hnext
            rw [happly] at hsize
            simp at hsize
          cases hframes : replayFrames json state frames with
          | error e => simp
          | ok next => exact absurd hframes (hnone next)
      | ok reached =>
          have hframes : replayFrames json state frames = .ok reached.1 :=
            (hreplay reached.1).mp ⟨reached.2, happly⟩
          simp only [hframes]
          cases hothers : readSegments json reached.1 segments with
          | error e =>
              have hnone : replayFrames json reached.1 rest ≠ .ok state' := fun h =>
                absurd (hothers.symm.trans ((ih reached.1 state' segments).mpr ⟨rfl, h⟩)) (by simp)
              simp [hnone]
          | ok others =>
              obtain ⟨hfiles, hstate⟩ := (ih reached.1 others.1 others.2).mp hothers
              simp [hfiles, hstate, eq_comm, and_comm]

end Directory

/-! ## Parsing arbitrary bytes -/

theorem frame_of_fields {rest : Bytes} {length : Nat}
    (hlength : (uint32 (slice rest 0 4)).toNat = length) (hpositive : length ≠ 0)
    (hwhole : frameHeaderSize + length ≤ rest.length)
    (hchecksum : checksumIEEE (slice rest frameHeaderSize (frameHeaderSize + length)) =
      uint32 (slice rest 4 8)) :
    rest = frame ((slice rest frameHeaderSize (frameHeaderSize + length)).headD 0)
      (slice rest frameHeaderSize (frameHeaderSize + length)).tail ++
        rest.drop (frameHeaderSize + length) ∧
      (slice rest frameHeaderSize (frameHeaderSize + length)).tail.length + 1 = length := by
  have hbody : (slice rest frameHeaderSize (frameHeaderSize + length)).length = length := by
    simp only [slice, List.length_take, List.length_drop]
    omega
  obtain ⟨kind, payload, hcons⟩ :
      ∃ kind payload, slice rest frameHeaderSize (frameHeaderSize + length) = kind :: payload :=
    List.exists_cons_of_length_pos (by omega)
  rw [hcons] at hbody hchecksum ⊢
  rw [List.length_cons] at hbody
  refine ⟨?_, hbody⟩
  have hfield : ∀ first, first + 4 ≤ frameHeaderSize →
      putUint32 (uint32 (slice rest first (first + 4))) = slice rest first (first + 4) := by
    intro first hfirst
    refine putUint32_uint32 ?_
    simp only [slice, List.length_take, List.length_drop]
    omega
  have hsize : putUint32 (UInt32.ofNat (payload.length + 1)) = slice rest 0 4 := by
    rw [hbody, ← hlength, UInt32.ofNat_toNat]
    exact hfield 0 (by simp [frameHeaderSize])
  have hsum : putUint32 (checksumIEEE (kind :: payload)) = slice rest 4 8 := by
    rw [hchecksum]
    exact hfield 4 (by simp [frameHeaderSize])
  have hfields : slice rest 0 4 ++ slice rest 4 8 = rest.take frameHeaderSize := by
    simp only [slice, List.drop_zero, Nat.sub_zero]
    rw [← List.take_add]
    rfl
  rw [List.headD_cons, List.tail_cons, frame, hsize, hsum, hfields, ← hcons, slice,
    Nat.add_sub_cancel_left, ← List.take_add, List.take_append_drop]

/-- The reader found exactly these frames at `offset`, and a scan visits the same. -/
structure Parsed (json : CheckpointJSON) (final : Bool) (offset : Nat) (rest : Bytes)
    (state : RecoveredState) (reached : RecoveredState × Nat) (frames : List Frame) : Prop where
  sized : ∀ f ∈ frames, f.Sized
  bytes : ∃ tail, rest = frames.flatMap Frame.bytes ++ tail ∧ (final = false → tail = [])
  applied : applyFrames json offset state frames = .ok reached
  visited : ∀ {α ε : Type} (visit : α → UInt8 → Bytes → Except ε α) (found : α),
    scanFrames final visit offset rest found = visitFrames visit found frames

section Parsing

variable {json : CheckpointJSON} {final : Bool} {offset : Nat} {rest : Bytes}
  {state : RecoveredState} {reached : RecoveredState × Nat}

theorem parsed_stop (htail : final = false → rest = [])
    (hscan : ∀ {α ε : Type} (visit : α → UInt8 → Bytes → Except ε α) (found : α),
      scanFrames final visit offset rest found = .ok found) :
    Parsed json final offset rest state (state, offset) [] :=
  ⟨by simp, ⟨rest, rfl, htail⟩, rfl, hscan⟩

theorem readFrames_parsed (hread : readFrames json final offset rest state = .ok reached) :
    ∃ frames, Parsed json final offset rest state reached frames := by
  induction hn : rest.length using Nat.strong_induction_on generalizing offset rest state with
  | _ n ih =>
    subst hn
    rw [readFrames, readFramesWith] at hread
    split at hread
    next hnil =>
      cases hread
      exact ⟨[], parsed_stop (fun _ => hnil) fun visit found => by
        rw [scanFrames, if_pos hnil]⟩
    next hnil =>
      split at hread
      next hshort =>
        split at hread
        next hfinal =>
          cases hread
          refine ⟨[], parsed_stop (by simp [hfinal]) fun visit found => ?_⟩
          rw [scanFrames, if_neg hnil, if_pos hshort, if_pos hfinal]
        · simp at hread
      next hshort =>
        dsimp only at hread
        split at hread
        · simp at hread
        next hzero =>
          split at hread
          · simp at hread
          next hlarge =>
            have hbounds : ¬ ((uint32 (slice rest 0 4)).toNat = 0 ∨
                (uint32 (slice rest 0 4)).toNat > maxRecordSize) := fun h => h.elim hzero hlarge
            split at hread
            next hpart =>
              split at hread
              next hfinal =>
                cases hread
                refine ⟨[], parsed_stop (by simp [hfinal]) fun visit found => ?_⟩
                rw [scanFrames, if_neg hnil, if_neg hshort]
                dsimp only
                rw [if_neg hbounds, if_pos hpart, if_pos hfinal]
              · simp at hread
            next hpart =>
              split at hread
              next hsum =>
                split at hread
                next hlast =>
                  cases hread
                  have hfinal : final = true := (Bool.and_eq_true _ _ ▸ hlast).1
                  refine ⟨[], parsed_stop (by simp [hfinal]) fun visit found => ?_⟩
                  rw [scanFrames, if_neg hnil, if_neg hshort]
                  dsimp only
                  rw [if_neg hbounds, if_neg hpart, if_pos hsum, if_pos hlast]
                · simp at hread
              next hsum =>
                split at hread
                · simp at hread
                next next hnext =>
                  rw [ne_eq, not_not] at hsum
                  rw [processRecord] at hnext
                  obtain ⟨hframe, hsize⟩ := frame_of_fields rfl hzero (Nat.not_lt.mp hpart) hsum
                  obtain ⟨frames, hparsed⟩ :=
                    ih _ (by simp only [List.length_drop]; omega) hread rfl
                  obtain ⟨tail, htail, hwhole⟩ := hparsed.bytes
                  generalize hbody : slice rest frameHeaderSize
                    (frameHeaderSize + (uint32 (slice rest 0 4)).toNat) = body at *
                  refine ⟨⟨body.headD 0, body.tail⟩ :: frames, ?_, ⟨tail, ?_, hwhole⟩, ?_, ?_⟩
                  · intro f hf
                    rcases List.mem_cons.mp hf with rfl | hf
                    · simp only [Frame.Sized, hsize]
                      exact Nat.not_lt.mp hlarge
                    · exact hparsed.sized f hf
                  · rw [List.flatMap_cons, List.append_assoc, ← htail]
                    exact hframe
                  · simp only [applyFrames, hnext, Frame.bytes_length, hsize]
                    rw [← Nat.add_assoc]
                    exact hparsed.applied
                  · intro α ε visit found
                    rw [scanFrames, if_neg hnil, if_neg hshort]
                    dsimp only
                    rw [if_neg hbounds, if_neg hpart, hbody, if_neg (by simp [hsum]), visitFrames]
                    cases visit found (body.headD 0) body.tail with
                    | error e => rfl
                    | ok found => exact hparsed.visited visit found

theorem segmentHeader_of_fields {contents : Bytes}
    (hlength : segmentHeaderSize ≤ contents.length) (hmagic : slice contents 0 8 = segmentMagic)
    (hversion : uint32 (slice contents 8 12) = formatVersion) :
    contents = segmentHeader ++ contents.drop segmentHeaderSize := by
  have hfield : putUint32 formatVersion = slice contents 8 12 := by
    rw [← hversion]
    refine putUint32_uint32 ?_
    simp only [slice, segmentHeaderSize, List.length_take, List.length_drop] at hlength ⊢
    omega
  have htake : slice contents 0 8 ++ slice contents 8 12 = contents.take segmentHeaderSize := by
    simp only [slice, List.drop_zero, Nat.sub_zero]
    rw [← List.take_add]
    rfl
  rw [segmentHeader, ← hmagic, hfield, htake, List.take_append_drop]

theorem readSegment_parsed {contents : Bytes} {read : RecoveredState × Bytes}
    (hread : readSegment json contents final state = .ok read) :
    ∃ frames : List Frame, (∀ f ∈ frames, f.Sized) ∧ read.2 = framedSegment frames ∧
      replayFrames json state frames = .ok read.1 ∧
      ∀ {α ε : Type} (visit : α → UInt8 → Bytes → Except ε α) (found : α),
        scanSegmentFrames contents final visit found = visitFrames visit found frames := by
  rw [readSegment, readSegmentWith] at hread
  split at hread
  · simp at hread
  next hlength =>
    split at hread
    · simp at hread
    next hmagic =>
      split at hread
      · simp at hread
      next hversion =>
        rw [ne_eq, not_not] at hmagic hversion
        split at hread
        · simp at hread
        next state' size hframes =>
          cases hread
          obtain ⟨frames, hparsed⟩ := readFrames_parsed hframes
          obtain ⟨tail, htail, -⟩ := hparsed.bytes
          refine ⟨frames, hparsed.sized, ?_, ?_, ?_⟩
          · have hfile := segmentHeader_of_fields (Nat.not_lt.mp hlength) hmagic hversion
            rw [htail, ← List.append_assoc] at hfile
            have hsize := applyFrames_offset hparsed.applied
            simp only at hsize ⊢
            rw [hfile, hsize, ← segmentHeader_length, ← List.length_append]
            exact List.take_left' rfl
          · exact (applyFrames_ok json frames _ _ _).mp ⟨size, hparsed.applied⟩
          · intro α ε visit found
            have htake : contents.take 8 = segmentMagic := by simpa [slice] using hmagic
            rw [scanSegmentFrames, if_neg hlength, if_neg (not_not.mpr htake),
              if_neg (not_not.mpr hversion)]
            exact hparsed.visited visit found

theorem readSegments_parsed {segments : List Segment} {read : RecoveredState × List Segment}
    (hread : readSegments json state segments = .ok read) :
    ∃ frames, Framed read.2 frames ∧ replayFrames json state frames = .ok read.1 ∧
      read.2.map Segment.number = segments.map Segment.number ∧
      ∀ {α ε : Type} (visit : α → UInt8 → Bytes → Except ε α) (found : α),
        visitSegments visit found segments = visitFrames visit found frames := by
  induction segments generalizing state read with
  | nil =>
      cases hread
      exact ⟨[], .nil, rfl, rfl, fun _ _ => rfl⟩
  | cons segment segments ih =>
      rw [readSegments] at hread
      split at hread
      · simp at hread
      next state' contents hfirst =>
        split at hread
        · simp at hread
        next state'' others hothers =>
          cases hread
          obtain ⟨frames, hsized, hcontents, hreplay, hvisit⟩ := readSegment_parsed hfirst
          obtain ⟨rest, hrest, hreplayRest, hnumbers, hvisitRest⟩ := ih hothers
          simp only at hcontents hreplay hrest hreplayRest hnumbers
          refine ⟨frames ++ rest, ?_, ?_, by simp [hnumbers], fun visit found => ?_⟩
          · simp only [hcontents]
            exact .cons hsized hrest
          · rw [replayFrames_append, hreplay]
            exact hreplayRest
          · rw [visitSegments, hvisit, visitFrames_append]
            cases visitFrames visit found frames with
            | error e => rfl
            | ok next => exact hvisitRest visit next

/-- The frames recover to `state`: by the newest checkpoint among them, and by their replay. -/
structure FramesRecover (json : CheckpointJSON) (frames : List Frame) (state : RecoveredState) :
    Prop where
  replayed : ∃ checkpoint, visitFrames (visitCheckpoint json) {} frames = .ok checkpoint ∧
    replayFrames json checkpoint.start frames = .ok state
  named : state.identity.clusterID ≠ [] ∧ state.identity.nodeID ≠ []

/-- Recovery from any bytes is recovery from the frames it leaves behind. -/
theorem recoverSegments_parsed {segments : List Segment} {read : RecoveredState × List Segment}
    (hrecover : recoverSegments json segments = .ok read) :
    ∃ frames, Framed read.2 frames ∧ FramesRecover json frames read.1 ∧
      read.2.map Segment.number = segments.map Segment.number ∧
      ∀ {α ε : Type} (visit : α → UInt8 → Bytes → Except ε α) (found : α),
        visitSegments visit found segments = visitFrames visit found frames := by
  rw [recoverSegments, newestCompactionCheckpoint_eq] at hrecover
  split at hrecover
  · simp at hrecover
  next checkpoint hcheckpoint =>
    split at hrecover
    · simp at hrecover
    next state files hread =>
      split at hrecover
      · simp at hrecover
      next hnamed =>
        cases hrecover
        obtain ⟨frames, hframed, hreplay, hnumbers, hvisit⟩ := readSegments_parsed hread
        refine ⟨frames, hframed, ⟨⟨checkpoint, ?_, hreplay⟩, not_or.mp hnamed⟩, hnumbers, hvisit⟩
        rw [← hvisit, hcheckpoint]

theorem recoverSegments_framed {segments : List Segment} {frames : List Frame}
    (hframed : Framed segments frames) (read : RecoveredState × List Segment) :
    recoverSegments json segments = .ok read ↔
      read.2 = segments ∧ FramesRecover json frames read.1 := by
  constructor
  · intro hrecover
    rw [recoverSegments, newestCompactionCheckpoint_eq,
      visitSegments_framed (visitCheckpoint json) hframed] at hrecover
    split at hrecover
    · simp at hrecover
    next checkpoint hcheckpoint =>
      split at hrecover
      · simp at hrecover
      next state files hread =>
        split at hrecover
        · simp at hrecover
        next hnamed =>
          cases hrecover
          obtain ⟨hfiles, hreplay⟩ := (readSegments_framed hframed _ _ _).mp hread
          exact ⟨hfiles, ⟨checkpoint, hcheckpoint, hreplay⟩, not_or.mp hnamed⟩
  · obtain ⟨state, files⟩ := read
    rintro ⟨rfl, ⟨⟨checkpoint, hcheckpoint, hreplay⟩, hnamed⟩⟩
    have hread := (readSegments_framed hframed checkpoint.start state files).mpr ⟨rfl, hreplay⟩
    simp only [CompactionCheckpoint.start] at hread
    rw [recoverSegments, newestCompactionCheckpoint_eq,
      visitSegments_framed (visitCheckpoint json) hframed, hcheckpoint]
    simp only [hread]
    rw [if_neg (not_or.mpr hnamed)]

end Parsing

end QuorumKV.Wal
