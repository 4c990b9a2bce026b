import QuorumKV.Wal.Record

/-!
# Segments, frames, and recovery

A segment is a header followed by frames: a length, a CRC-32, and a body whose
first byte is the record type.  `readSegment` replays a segment and
`scanSegmentFrames` visits its frames; the source reads the bytes twice, once
with each, and the two readers are modelled as it writes them.
-/

namespace QuorumKV.Wal

open Foundation
open QuorumKV.Raft (Bytes)

/-! ## Frames -/

/-- `QKVWAL01`. -/
def segmentMagic : Bytes := [81, 75, 86, 87, 65, 76, 48, 49]

def formatVersion : UInt32 := 1

def segmentHeaderSize : Nat := 12

def frameHeaderSize : Nat := 8

def maxRecordSize : Nat := 2 * 2 ^ 20

def segmentHeader : Bytes := segmentMagic ++ putUint32 formatVersion

def crcBit (crc : UInt32) : UInt32 :=
  if crc &&& 1 = 1 then (crc >>> 1) ^^^ 0xEDB88320 else crc >>> 1

def crcByte (crc : UInt32) (byte : UInt8) : UInt32 :=
  crcBit (crcBit (crcBit (crcBit (crcBit (crcBit (crcBit (crcBit
    (crc ^^^ byte.toUInt32))))))))

/-- `crc32.ChecksumIEEE`. -/
def checksumIEEE (bytes : Bytes) : UInt32 := bytes.foldl crcByte 0xFFFFFFFF ^^^ 0xFFFFFFFF

/-- The bytes `appendRecordInSegment` writes for one record. -/
def frame (kind : UInt8) (payload : Bytes) : Bytes :=
  putUint32 (UInt32.ofNat (payload.length + 1)) ++
    putUint32 (checksumIEEE (kind :: payload)) ++ kind :: payload

theorem frame_length (kind : UInt8) (payload : Bytes) :
    (frame kind payload).length = frameHeaderSize + 1 + payload.length := by
  simp [frame, frameHeaderSize]
  omega

structure Segment where
  number : Nat
  contents : Bytes
  deriving DecidableEq, Repr

/-! ## Replaying one segment -/

/--
The errors of `readSegment`, with the byte offset their texts report; `ε` is the
error of processing a record.
-/
inductive ReadError (ε : Type) where
  | header
  | magic
  | version (version : UInt32)
  | frameHeader (offset : Nat)
  | zeroLength (offset : Nat)
  | frameLength (offset length : Nat)
  | frameBody (offset : Nat)
  | checksum (offset : Nat) (got want : UInt32)
  | record (offset : Nat) (error : ε)
  deriving DecidableEq, Repr

abbrev SegmentError := ReadError RecordError

section Processing

variable {α ε : Type}

/--
The frame loop of `readSegment` from `offset` on, where `rest` is the file's
remainder.  It returns what was processed and the offset the file ends at, which
lies before the remainder's end when an interrupted final frame is cut off.
-/
def readFramesWith (process : α → UInt8 → Bytes → Except ε α) (recoverFinalFrame : Bool)
    (offset : Nat) (rest : Bytes) (processed : α) : Except (ReadError ε) (α × Nat) :=
  if rest = [] then .ok (processed, offset)
  else if rest.length < frameHeaderSize then
    if recoverFinalFrame then .ok (processed, offset) else .error (.frameHeader offset)
  else
    let length := (uint32 (slice rest 0 4)).toNat
    if length = 0 then .error (.zeroLength offset)
    else if length > maxRecordSize then .error (.frameLength offset length)
    else if rest.length < frameHeaderSize + length then
      if recoverFinalFrame then .ok (processed, offset) else .error (.frameBody offset)
    else
      let body := slice rest frameHeaderSize (frameHeaderSize + length)
      let want := uint32 (slice rest 4 8)
      if checksumIEEE body ≠ want then
        if recoverFinalFrame && rest.length == frameHeaderSize + length then
          .ok (processed, offset)
        else .error (.checksum offset (checksumIEEE body) want)
      else
        match process processed (body.headD 0) body.tail with
        | .error e => .error (.record offset e)
        | .ok processed =>
            readFramesWith process recoverFinalFrame (offset + frameHeaderSize + length)
              (rest.drop (frameHeaderSize + length)) processed
  termination_by rest.length
  decreasing_by
    simp only [List.length_drop]
    omega

def readSegmentWith (process : α → UInt8 → Bytes → Except ε α) (contents : Bytes)
    (recoverFinalFrame : Bool) (processed : α) : Except (ReadError ε) (α × Bytes) :=
  if contents.length < segmentHeaderSize then .error .header
  else if slice contents 0 8 ≠ segmentMagic then .error .magic
  else if uint32 (slice contents 8 12) ≠ formatVersion then
    .error (.version (uint32 (slice contents 8 12)))
  else
    match readFramesWith process recoverFinalFrame segmentHeaderSize
        (contents.drop segmentHeaderSize) processed with
    | .error e => .error e
    | .ok (processed, size) => .ok (processed, contents.take size)

end Processing

def processRecord (json : CheckpointJSON) (state : RecoveredState) (kind : UInt8)
    (payload : Bytes) : Except RecordError RecoveredState :=
  applyRecord json kind payload state

def readFrames (json : CheckpointJSON) (recoverFinalFrame : Bool) (offset : Nat)
    (rest : Bytes) (state : RecoveredState) : Except SegmentError (RecoveredState × Nat) :=
  readFramesWith (processRecord json) recoverFinalFrame offset rest state

/-- `readSegment` processes a record by applying it. -/
def readSegment (json : CheckpointJSON) (contents : Bytes) (recoverFinalFrame : Bool)
    (state : RecoveredState) : Except SegmentError (RecoveredState × Bytes) :=
  readSegmentWith (processRecord json) contents recoverFinalFrame state

/-! ## Visiting the frames of one segment -/

/-- The errors of `scanSegmentFrames`; the last is the visitor's own. -/
inductive ScanError (ε : Type) where
  | header
  | magic
  | version (version : UInt32)
  | frameHeader (offset : Nat)
  | frameLength (offset length : Nat)
  | frameBody (offset : Nat)
  | checksum (offset : Nat) (got want : UInt32)
  | visit (error : ε)
  deriving DecidableEq, Repr

def scanFrames {α ε : Type} (tolerateInterruptedTail : Bool)
    (visit : α → UInt8 → Bytes → Except ε α) (offset : Nat) (rest : Bytes) (visited : α) :
    Except (ScanError ε) α :=
  if rest = [] then .ok visited
  else if rest.length < frameHeaderSize then
    if tolerateInterruptedTail then .ok visited else .error (.frameHeader offset)
  else
    let length := (uint32 (slice rest 0 4)).toNat
    if length = 0 ∨ length > maxRecordSize then
      .error (.frameLength offset length)
    else if rest.length < frameHeaderSize + length then
      if tolerateInterruptedTail then .ok visited else .error (.frameBody offset)
    else
      let body := slice rest frameHeaderSize (frameHeaderSize + length)
      let want := uint32 (slice rest 4 8)
      if checksumIEEE body ≠ want then
        if tolerateInterruptedTail && rest.length == frameHeaderSize + length then
          .ok visited
        else .error (.checksum offset (checksumIEEE body) want)
      else
        match visit visited (body.headD 0) body.tail with
        | .error e => .error (.visit e)
        | .ok visited =>
            scanFrames tolerateInterruptedTail visit (offset + frameHeaderSize + length)
              (rest.drop (frameHeaderSize + length)) visited
  termination_by rest.length
  decreasing_by
    simp only [List.length_drop]
    omega

def scanSegmentFrames {α ε : Type} (contents : Bytes) (tolerateInterruptedTail : Bool)
    (visit : α → UInt8 → Bytes → Except ε α) (visited : α) : Except (ScanError ε) α :=
  if contents.length < segmentHeaderSize then .error .header
  else if contents.take 8 ≠ segmentMagic then .error .magic
  else if uint32 (slice contents 8 12) ≠ formatVersion then
    .error (.version (uint32 (slice contents 8 12)))
  else scanFrames tolerateInterruptedTail visit segmentHeaderSize
    (contents.drop segmentHeaderSize) visited

/-! ## Recovery from all segments -/

/-- `strings.TrimSpace(s) == ""`: the bytes encode nothing but Unicode spaces. -/
def blank : Bytes → Bool
  | [] => true
  | 0xC2 :: 0x85 :: rest => blank rest
  | 0xC2 :: 0xA0 :: rest => blank rest
  | 0xE1 :: 0x9A :: 0x80 :: rest => blank rest
  | 0xE2 :: 0x80 :: byte :: rest =>
      ((0x80 ≤ byte && byte ≤ 0x8A) || byte == 0xA8 || byte == 0xA9 || byte == 0xAF) &&
        blank rest
  | 0xE2 :: 0x81 :: 0x9F :: rest => blank rest
  | 0xE3 :: 0x80 :: 0x80 :: rest => blank rest
  | byte :: rest => ((0x09 ≤ byte && byte ≤ 0x0D) || byte == 0x20) && blank rest

inductive CheckpointError where
  | decode
  | incompleteIdentity
  | position (snapshotIndex snapshotTerm commitIndex : UInt64)
  | truncation (truncateFrom snapshotIndex : UInt64)
  deriving DecidableEq, Repr

/-- The visitor of `newestCompactionCheckpoint`. -/
def visitCheckpoint (json : CheckpointJSON) (newest : CompactionCheckpoint) (kind : UInt8)
    (payload : Bytes) : Except CheckpointError CompactionCheckpoint :=
  if kind ≠ RecordType.compactionCheckpoint.toByte then .ok newest
  else
    match json.unmarshal payload with
    | none => .error .decode
    | some checkpoint =>
        if blank checkpoint.identity.clusterID ∨ blank checkpoint.identity.nodeID then
          .error .incompleteIdentity
        else if checkpoint.snapshotIndex = 0 ∨ checkpoint.snapshotTerm = 0 ∨
            checkpoint.snapshotIndex > checkpoint.commitIndex then
          .error (.position checkpoint.snapshotIndex checkpoint.snapshotTerm
            checkpoint.commitIndex)
        else if checkpoint.truncateFrom ≠ 0 ∧
            checkpoint.truncateFrom ≠ checkpoint.snapshotIndex + 1 then
          .error (.truncation checkpoint.truncateFrom checkpoint.snapshotIndex)
        else .ok checkpoint

def newestCompactionCheckpoint (json : CheckpointJSON) (newest : CompactionCheckpoint) :
    List Segment → Except (ScanError CheckpointError) CompactionCheckpoint
  | [] => .ok newest
  | segment :: segments =>
      match scanSegmentFrames segment.contents segments.isEmpty (visitCheckpoint json)
          newest with
      | .error e => .error e
      | .ok newest => newestCompactionCheckpoint json newest segments

inductive RecoverError where
  | checkpoint (error : ScanError CheckpointError)
  | segment (number : Nat) (error : SegmentError)
  | incompleteIdentity
  deriving DecidableEq, Repr

/-- The segment loop of `recoverSegments`, with the segments as it leaves them. -/
def readSegments (json : CheckpointJSON) (state : RecoveredState) :
    List Segment → Except RecoverError (RecoveredState × List Segment)
  | [] => .ok (state, [])
  | segment :: segments =>
      match readSegment json segment.contents segments.isEmpty state with
      | .error e => .error (.segment segment.number e)
      | .ok (state, contents) =>
          match readSegments json state segments with
          | .error e => .error e
          | .ok (state, others) => .ok (state, { segment with contents := contents } :: others)

def recoverSegments (json : CheckpointJSON) (segments : List Segment) :
    Except RecoverError (RecoveredState × List Segment) :=
  match newestCompactionCheckpoint json {} segments with
  | .error e => .error (.checkpoint e)
  | .ok checkpoint =>
      match readSegments json
          { identity := checkpoint.identity
            hardState := checkpoint.hardState
            commitIndex := checkpoint.commitIndex
            snapshotIndex := checkpoint.snapshotIndex
            snapshotTerm := checkpoint.snapshotTerm } segments with
      | .error e => .error e
      | .ok (state, segments) =>
          if state.identity.clusterID = [] ∨ state.identity.nodeID = [] then
            .error .incompleteIdentity
          else .ok (state, segments)

/-- The index every entry and truncation of a covered segment stays at or below. -/
def visitCoverage (snapshotIndex : UInt64) (covered : Bool) (kind : UInt8)
    (payload : Bytes) : Except Empty Bool :=
  match RecordType.ofByte? kind with
  | some .logEntries =>
      .ok (covered && (List.range (payload.length / 17)).all fun i =>
        uint64 (slice payload (17 * i) (17 * i + 8)) ≤ snapshotIndex)
  | some .logEntriesV2 =>
      .ok (covered && (List.range (payload.length / 33)).all fun i =>
        uint64 (slice payload (33 * i) (33 * i + 8)) ≤ snapshotIndex)
  | some .logEntryV3 =>
      .ok (covered && !(decide (payload.length < 8) ||
        decide (uint64 (slice payload 0 8) > snapshotIndex)))
  | some .logTruncation =>
      .ok (covered && !(decide (payload.length ≠ 8) ||
        decide (uint64 payload > snapshotIndex)))
  | _ => .ok covered

def segmentCoveredBySnapshot (contents : Bytes) (snapshotIndex : UInt64) :
    Except (ScanError Empty) Bool :=
  scanSegmentFrames contents false (visitCoverage snapshotIndex) true

/-! ## Reading what was written -/

theorem segmentHeader_length : segmentHeader.length = segmentHeaderSize := by
  simp [segmentHeader, segmentMagic, segmentHeaderSize]

theorem segmentHeader_head (rest : Bytes) :
    ¬ (segmentHeader ++ rest).length < segmentHeaderSize ∧
      slice (segmentHeader ++ rest) 0 8 = segmentMagic ∧
      uint32 (slice (segmentHeader ++ rest) 8 12) = formatVersion ∧
      (segmentHeader ++ rest).drop segmentHeaderSize = rest := by
  refine ⟨?_, ?_, ?_, ?_⟩
  · simp [segmentHeader_length]
  · exact slice_field [] segmentMagic (putUint32 formatVersion ++ rest)
      (by simp [segmentHeader]) rfl (by simp [segmentMagic])
  · rw [slice_field segmentMagic (putUint32 formatVersion) rest
      (by simp [segmentHeader]) (by simp [segmentMagic]) (by simp), uint32_putUint32]
  · exact List.drop_left' segmentHeader_length

/-- What every reader sees at the head of a written frame. -/
structure FrameHead (kind : UInt8) (payload rest bytes : Bytes) : Prop where
  ne_nil : bytes ≠ []
  length : frameHeaderSize + (payload.length + 1) ≤ bytes.length
  size : (uint32 (slice bytes 0 4)).toNat = payload.length + 1
  checksum : uint32 (slice bytes 4 8) = checksumIEEE (kind :: payload)
  body : slice bytes frameHeaderSize (frameHeaderSize + (payload.length + 1)) = kind :: payload
  drop : bytes.drop (frameHeaderSize + (payload.length + 1)) = rest

theorem frame_head (kind : UInt8) {payload : Bytes} (rest : Bytes)
    (h : payload.length + 1 ≤ maxRecordSize) :
    FrameHead kind payload rest (frame kind payload ++ rest) := by
  have hlength := frame_length kind payload
  have hsize : payload.length + 1 < 2 ^ 32 := by
    simp only [maxRecordSize] at h
    omega
  refine ⟨?_, ?_, ?_, ?_, ?_, ?_⟩
  · simp [frame]
  · simp only [List.length_append, hlength]
    omega
  · have hfield : slice (frame kind payload ++ rest) 0 4 =
        putUint32 (UInt32.ofNat (payload.length + 1)) :=
      slice_field [] _ (putUint32 (checksumIEEE (kind :: payload)) ++ kind :: payload ++ rest)
        (by simp [frame]) rfl (by simp)
    rw [hfield, uint32_putUint32, UInt32.toNat_ofNat', Nat.mod_eq_of_lt hsize]
  · have hfield : slice (frame kind payload ++ rest) 4 8 =
        putUint32 (checksumIEEE (kind :: payload)) :=
      slice_field (putUint32 (UInt32.ofNat (payload.length + 1))) _ (kind :: payload ++ rest)
        (by simp [frame]) (by simp) (by simp)
    rw [hfield, uint32_putUint32]
  · exact slice_field (putUint32 (UInt32.ofNat (payload.length + 1)) ++
      putUint32 (checksumIEEE (kind :: payload))) (kind :: payload) rest
      (by simp [frame]) (by simp [frameHeaderSize]) (by simp)
  · exact List.drop_left' (by rw [hlength]; omega)

theorem readFrames_frame (json : CheckpointJSON) (final : Bool) (offset : Nat)
    (kind : UInt8) {payload : Bytes} (rest : Bytes) (state : RecoveredState)
    (h : payload.length + 1 ≤ maxRecordSize) :
    readFrames json final offset (frame kind payload ++ rest) state =
      match applyRecord json kind payload state with
      | .error e => .error (.record offset e)
      | .ok state =>
          readFrames json final (offset + frameHeaderSize + (payload.length + 1)) rest state := by
  have hhead := frame_head kind rest h
  generalize frame kind payload ++ rest = bytes at hhead
  have hlength := hhead.length
  rw [readFrames, readFramesWith, if_neg hhead.ne_nil, if_neg (by omega)]
  simp only [hhead.size, hhead.checksum, hhead.body, hhead.drop]
  rw [if_neg (by omega), if_neg (by omega), if_neg (by omega), if_neg (by simp)]
  simp only [List.headD_cons, List.tail_cons, processRecord]
  cases applyRecord json kind payload state <;> rfl

theorem scanFrames_frame {α ε : Type} (tolerate : Bool)
    (visit : α → UInt8 → Bytes → Except ε α) (offset : Nat) (kind : UInt8)
    {payload : Bytes} (rest : Bytes) (visited : α) (h : payload.length + 1 ≤ maxRecordSize) :
    scanFrames tolerate visit offset (frame kind payload ++ rest) visited =
      match visit visited kind payload with
      | .error e => .error (.visit e)
      | .ok visited =>
          scanFrames tolerate visit (offset + frameHeaderSize + (payload.length + 1)) rest
            visited := by
  have hhead := frame_head kind rest h
  generalize frame kind payload ++ rest = bytes at hhead
  have hlength := hhead.length
  rw [scanFrames, if_neg hhead.ne_nil, if_neg (by omega)]
  simp only [hhead.size, hhead.checksum, hhead.body, hhead.drop]
  rw [if_neg (by omega), if_neg (by omega), if_neg (by simp)]
  simp

end QuorumKV.Wal
