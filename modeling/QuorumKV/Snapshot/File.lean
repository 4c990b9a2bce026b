import QuorumKV.Session.Snapshot
import QuorumKV.Wal.Segment

/-!
# Snapshot files

The file format of `internal/snapshot/snapshot.go`: a header with magic, version,
payload length and CRC-32, and a JSON payload.  `save` writes it, `decode` reads
it from memory and `validateFile` from an open file, as a stream.  `StateJSON`
stands for `encoding/json` at the one type, and assumes of it only that it decodes
what it encoded when the strings are valid UTF-8.
-/

namespace QuorumKV.Snapshot

open Foundation
open QuorumKV.Raft (Bytes NodeID SessionID)
open QuorumKV.Wal (ValidUTF8 blank checksumIEEE crcByte slice slice_field
  slice_length)

/-! ## The format -/

/-- `QKVSNP01`. -/
def magic : Bytes := [81, 75, 86, 83, 78, 80, 48, 49]

def formatVersion : UInt32 := 1

def headerSize : Nat := 24

def maxPayloadSize : Nat := 4 * 2 ^ 30

def header (payload : Bytes) : Bytes :=
  magic ++ (putUint32 formatVersion ++ (putUint64 (UInt64.ofNat payload.length) ++
    putUint32 (checksumIEEE payload)))

@[simp] theorem header_length (payload : Bytes) : (header payload).length = headerSize := by
  simp [header, magic, headerSize]

/-- Every string of the state is valid UTF-8 and its numbers are machine words. -/
structure State.Encodable (state : State) : Prop where
  clusterID : ValidUTF8 state.identity.clusterID
  nodeID : ValidUTF8 state.identity.nodeID
  memberIDs : ∀ id ∈ state.identity.memberIDs, ValidUTF8 id
  keys : ∀ key ∈ state.values, ValidUTF8 key
  includedIndex : state.includedIndex < 2 ^ 64
  includedTerm : state.includedTerm < 2 ^ 64

structure StateJSON where
  marshal : State → Bytes
  /-- The first `Decode` of a stream: the value, and what follows it. -/
  decode : Bytes → Option (State × Bytes)
  decode_marshal : ∀ state, state.Encodable → decode (marshal state) = some (state, [])

/-! ## Validation -/

inductive StateError where
  | identity
  | memberCount (count : Nat)
  | memberEmpty
  | memberOrder
  | nodeAbsent
  | position
  | duplicateSession (id : SessionID)
  deriving DecidableEq, Repr

def memberError (previous : Option NodeID) : List NodeID → Option StateError
  | [] => none
  | id :: ids =>
      if blank id then some .memberEmpty
      else if previous.any fun previous => decide (id ≤ previous) then some .memberOrder
      else memberError (some id) ids

def sessionError (seen : List SessionID) : List Session → Option StateError
  | [] => none
  | session :: sessions =>
      if session.id ∈ seen then some (.duplicateSession session.id)
      else sessionError (session.id :: seen) sessions

/-- The error of `validateState`, `none` for a valid state. -/
def validateState (state : State) : Option StateError :=
  if blank state.identity.clusterID ∨ blank state.identity.nodeID then some .identity
  else if state.identity.memberIDs.length ≠ 3 then
    some (.memberCount state.identity.memberIDs.length)
  else
    match memberError none state.identity.memberIDs with
    | some e => some e
    | none =>
        if state.identity.nodeID ∉ state.identity.memberIDs then some .nodeAbsent
        else if (state.includedIndex = 0) ≠ (state.includedTerm = 0) then some .position
        else sessionError [] state.sessions

/-! ## Writing and reading -/

inductive SaveError where
  | state (error : StateError)
  | payloadSize (size : Nat)
  deriving DecidableEq, Repr

/-- The contents of the file `Save` installs. -/
def save (json : StateJSON) (state : State) : Except SaveError Bytes :=
  match validateState state with
  | some e => .error (.state e)
  | none =>
      let payload := json.marshal state
      if payload.length > maxPayloadSize then .error (.payloadSize payload.length)
      else .ok (header payload ++ payload)

/-- The errors of the two readers, with the numbers their texts report. -/
inductive FileError where
  | size (size : Nat)
  | short
  | magic
  | version (version : UInt32)
  | payloadLength (length : UInt64)
  | length (got : Nat) (want : UInt64)
  | checksum (got want : UInt32)
  | payload
  | trailing
  | state (error : StateError)
  deriving DecidableEq, Repr

/-- The white space the JSON decoder skips before it finds the end of its input. -/
def jsonSpace (byte : UInt8) : Bool := byte == 0x20 || byte == 0x09 || byte == 0x0A || byte == 0x0D

/-- One value, and a second `Decode` that has to find the end. -/
def decodePayload (json : StateJSON) (payload : Bytes) : Except FileError State :=
  match json.decode payload with
  | none => .error .payload
  | some (state, rest) => if rest.all jsonSpace then .ok state else .error .trailing

def decode (json : StateJSON) (contents : Bytes) : Except FileError State :=
  if contents.length > maxPayloadSize + headerSize then .error (.size contents.length)
  else if contents.length < headerSize then .error .short
  else if contents.take 8 ≠ magic then .error .magic
  else if uint32 (slice contents 8 12) ≠ formatVersion then
    .error (.version (uint32 (slice contents 8 12)))
  else
    let length := uint64 (slice contents 12 20)
    if length.toNat > maxPayloadSize then .error (.payloadLength length)
    else if length.toNat ≠ contents.length - headerSize then
      .error (.length (contents.length - headerSize) length)
    else
      let payload := contents.drop headerSize
      let want := uint32 (slice contents 20 24)
      if checksumIEEE payload ≠ want then .error (.checksum (checksumIEEE payload) want)
      else
        match decodePayload json payload with
        | .error e => .error e
        | .ok state =>
            match validateState state with
            | some e => .error (.state e)
            | none => .ok state

/-- `crc32.Update`: what a running hash does with the next bytes. -/
def updateChecksum (crc : UInt32) (bytes : Bytes) : UInt32 :=
  bytes.foldl crcByte (crc ^^^ 0xFFFFFFFF) ^^^ 0xFFFFFFFF

structure Handle where
  length : Nat
  checksum : UInt32
  deriving DecidableEq, Repr

/--
The reader of an open file.  The JSON decoder reads ahead in the payload, by
`taken` bytes, and the rest is copied away afterwards; both checksums follow what
passes through the stream.
-/
def validateFile (json : StateJSON) (taken : Nat) (contents : Bytes) :
    Except FileError (Handle × State) :=
  if contents.length > maxPayloadSize + headerSize then .error (.size contents.length)
  else if contents.length < headerSize then .error .short
  else
    let header := slice contents 0 headerSize
    if header.take 8 ≠ magic then .error .magic
    else if uint32 (slice header 8 12) ≠ formatVersion then
      .error (.version (uint32 (slice header 8 12)))
    else
      let payloadLength := uint64 (slice header 12 20)
      if payloadLength.toNat > maxPayloadSize then .error (.payloadLength payloadLength)
      else if payloadLength.toNat ≠ contents.length - headerSize then
        .error (.length (contents.length - headerSize) payloadLength)
      else
        let payload := slice contents headerSize (headerSize + payloadLength.toNat)
        let decoded := decodePayload json payload
        let payloadChecksum :=
          updateChecksum (updateChecksum 0 (payload.take taken)) (payload.drop taken)
        let fileChecksum := updateChecksum
          (updateChecksum (updateChecksum 0 header) (payload.take taken)) (payload.drop taken)
        let want := uint32 (slice header 20 24)
        if payloadChecksum ≠ want then .error (.checksum payloadChecksum want)
        else
          match decoded with
          | .error e => .error e
          | .ok state =>
              match validateState state with
              | some e => .error (.state e)
              | none => .ok (⟨contents.length, fileChecksum⟩, state)

/-! ## What is accepted -/

theorem header_fields (contents : Bytes) :
    contents = contents.take 8 ++ (slice contents 8 12 ++ (slice contents 12 20 ++
      (slice contents 20 24 ++ contents.drop headerSize))) := by
  simp only [slice, headerSize]
  conv_lhs =>
    rw [← List.take_append_drop 8 contents, ← List.take_append_drop 4 (contents.drop 8),
      ← List.take_append_drop 8 ((contents.drop 8).drop 4),
      ← List.take_append_drop 4 (((contents.drop 8).drop 4).drop 8)]
  simp only [List.drop_drop]

section Header

variable (payload : Bytes)

theorem header_magic : (header payload ++ payload).take 8 = magic := by
  rw [header, List.append_assoc, List.take_left' (by simp [magic])]

theorem header_version :
    slice (header payload ++ payload) 8 12 = putUint32 formatVersion :=
  slice_field magic _ (putUint64 (UInt64.ofNat payload.length) ++
    (putUint32 (checksumIEEE payload) ++ payload)) (by simp [header]) (by simp [magic]) (by simp)

theorem header_payloadLength :
    slice (header payload ++ payload) 12 20 = putUint64 (UInt64.ofNat payload.length) :=
  slice_field (magic ++ putUint32 formatVersion) _ (putUint32 (checksumIEEE payload) ++ payload)
    (by simp [header]) (by simp [magic]) (by simp)

theorem header_checksum :
    slice (header payload ++ payload) 20 24 = putUint32 (checksumIEEE payload) :=
  slice_field (magic ++ (putUint32 formatVersion ++ putUint64 (UInt64.ofNat payload.length))) _
    payload (by simp [header]) (by simp [magic]) (by simp)

theorem header_payload : (header payload ++ payload).drop headerSize = payload :=
  List.drop_left' (header_length payload)

end Header

theorem ofNat_payloadLength {payload : Bytes} (h : payload.length ≤ maxPayloadSize) :
    (UInt64.ofNat payload.length).toNat = payload.length := by
  rw [maxPayloadSize] at h
  rw [UInt64.toNat_ofNat']
  omega

/-- What `decode` accepts: a header for exactly the payload behind it. -/
theorem decode_eq_ok {json : StateJSON} {contents : Bytes} {state : State} :
    decode json contents = .ok state ↔
      ∃ payload, contents = header payload ++ payload ∧ payload.length ≤ maxPayloadSize ∧
        decodePayload json payload = .ok state ∧ validateState state = none := by
  constructor
  · intro hok
    simp only [decode] at hok
    split at hok
    · simp at hok
    split at hok
    · simp at hok
    next hshort =>
      rw [Nat.not_lt] at hshort
      split at hok
      · simp at hok
      next hmagic =>
        split at hok
        · simp at hok
        next hversion =>
          split at hok
          · simp at hok
          next hlimit =>
            split at hok
            · simp at hok
            next hlength =>
              split at hok
              · simp at hok
              next hchecksum =>
                rw [not_not] at hmagic hversion hlength hchecksum
                have hversionField : slice contents 8 12 = putUint32 formatVersion := by
                  rw [← hversion, putUint32_uint32]
                  exact slice_length (by rw [headerSize] at hshort; omega)
                have hlengthField : slice contents 12 20 =
                    putUint64 (UInt64.ofNat (contents.drop headerSize).length) := by
                  rw [List.length_drop, ← hlength, UInt64.ofNat_toNat, putUint64_uint64]
                  exact slice_length (by rw [headerSize] at hshort; omega)
                have hchecksumField : slice contents 20 24 =
                    putUint32 (checksumIEEE (contents.drop headerSize)) := by
                  rw [hchecksum, putUint32_uint32]
                  exact slice_length (by rw [headerSize] at hshort; omega)
                refine ⟨contents.drop headerSize, ?_, ?_, ?_⟩
                · conv_lhs =>
                    rw [header_fields contents, hmagic, hversionField, hlengthField,
                      hchecksumField]
                  simp only [header, List.append_assoc]
                · rw [List.length_drop]
                  omega
                · cases hpayload : decodePayload json (contents.drop headerSize) with
                  | error e => simp [hpayload] at hok
                  | ok decoded =>
                      cases hvalid : validateState decoded with
                      | some e => simp [hpayload, hvalid] at hok
                      | none =>
                          simp only [hpayload, hvalid, Except.ok.injEq] at hok
                          rw [← hok]
                          exact ⟨rfl, hvalid⟩
  · rintro ⟨payload, rfl, hsize, hpayload, hvalid⟩
    have hlength : (header payload ++ payload).length = headerSize + payload.length := by
      rw [List.length_append, header_length]
    simp only [decode, header_magic, header_version, header_payloadLength, header_checksum,
      header_payload, uint32_putUint32, uint64_putUint64, ofNat_payloadLength hsize, hlength]
    rw [if_neg (by omega), if_neg (by omega), if_neg (by simp), if_neg (by simp),
      if_neg (by omega), if_neg (by omega), if_neg (by simp), hpayload]
    simp only [hvalid]

theorem save_eq_ok {json : StateJSON} {state : State} {bytes : Bytes} :
    save json state = .ok bytes ↔ validateState state = none ∧
      (json.marshal state).length ≤ maxPayloadSize ∧
      bytes = header (json.marshal state) ++ json.marshal state := by
  rw [save]
  cases validateState state with
  | some e => simp
  | none =>
      simp only [true_and]
      split
      next hlarge => simpa using fun hsize => absurd hsize (Nat.not_le.mpr hlarge)
      next hsize =>
        rw [Except.ok.injEq, eq_comm]
        exact ⟨fun heq => ⟨Nat.not_lt.mp hsize, heq⟩, And.right⟩

theorem decode_save {json : StateJSON} {state : State} {bytes : Bytes} (h : state.Encodable)
    (hsave : save json state = .ok bytes) : decode json bytes = .ok state := by
  obtain ⟨hvalid, hsize, rfl⟩ := save_eq_ok.mp hsave
  refine decode_eq_ok.mpr ⟨_, rfl, hsize, ?_, hvalid⟩
  simp [decodePayload, json.decode_marshal state h]

/-! ## The two readers -/

theorem updateChecksum_append (crc : UInt32) (left right : Bytes) :
    updateChecksum (updateChecksum crc left) right = updateChecksum crc (left ++ right) := by
  simp only [updateChecksum, List.foldl_append, UInt32.xor_assoc, UInt32.xor_self,
    UInt32.xor_zero]

theorem updateChecksum_zero (bytes : Bytes) : updateChecksum 0 bytes = checksumIEEE bytes := by
  rw [updateChecksum, checksumIEEE, UInt32.zero_xor]

theorem updateChecksum_split (crc : UInt32) (taken : Nat) (payload : Bytes) :
    updateChecksum (updateChecksum crc (payload.take taken)) (payload.drop taken) =
      updateChecksum crc payload := by
  rw [updateChecksum_append, List.take_append_drop]

theorem slice_slice {bytes : Bytes} {first last size : Nat} (h : last ≤ size) :
    slice (slice bytes 0 size) first last = slice bytes first last := by
  simp only [slice, List.drop_zero, Nat.sub_zero, List.drop_take, List.take_take]
  rw [Nat.min_eq_left (by omega)]

theorem validateFile_eq (json : StateJSON) (taken : Nat) (contents : Bytes) :
    validateFile json taken contents = (decode json contents).map fun state =>
      (⟨contents.length, checksumIEEE contents⟩, state) := by
  have htake : (slice contents 0 headerSize).take 8 = contents.take 8 := by
    simp only [slice, List.drop_zero, List.take_take, headerSize]
    rfl
  simp only [validateFile, decode, htake, slice_slice (show 12 ≤ headerSize by decide),
    slice_slice (show 20 ≤ headerSize by decide), slice_slice (show 24 ≤ headerSize by decide),
    updateChecksum_split]
  split
  · rfl
  split
  · rfl
  split
  · rfl
  split
  · rfl
  split
  · rfl
  split
  · rfl
  next hlength =>
    rw [not_not] at hlength
    have hpayload : slice contents headerSize
        (headerSize + (uint64 (slice contents 12 20)).toNat) = contents.drop headerSize := by
      rw [slice, hlength, List.take_of_length_le (by rw [List.length_drop]; omega)]
    have hwhole : updateChecksum (updateChecksum 0 (slice contents 0 headerSize))
        (contents.drop headerSize) = checksumIEEE contents := by
      rw [updateChecksum_append, updateChecksum_zero, slice, List.drop_zero, Nat.sub_zero,
        List.take_append_drop]
    rw [hpayload, hwhole, updateChecksum_zero]
    split
    · rfl
    · cases decodePayload json (contents.drop headerSize) with
      | error e => rfl
      | ok state =>
          cases hvalid : validateState state with
          | some e => simp [hvalid, Except.map]
          | none => simp [hvalid, Except.map]

/-! ## A codec for states -/

/-- A byte of a string, as `json.Marshal` escapes it. -/
def quoteByte (byte : UInt8) : Bytes :=
  if byte = 0x22 then [0x5C, 0x22]
  else if byte = 0x5C then [0x5C, 0x5C]
  else if byte = 0x3C then [0x5C, 0x75, 0x30, 0x30, 0x33, 0x63]
  else [byte]

def quote (bytes : Bytes) : Bytes := bytes.flatMap quoteByte ++ [0x22]

/-- The string up to its closing quote; a `<` may also stand for itself. -/
def unquote : Bytes → Option (Bytes × Bytes)
  | [] => none
  | [byte] => if byte = 0x22 then some ([], []) else none
  | byte :: next :: rest =>
      if byte = 0x22 then some ([], next :: rest)
      else if byte = 0x5C then
        if next = 0x75 then
          if rest.take 4 = [0x30, 0x30, 0x33, 0x63] then
            (unquote (rest.drop 4)).map fun found => (0x3C :: found.1, found.2)
          else none
        else (unquote rest).map fun found => (next :: found.1, found.2)
      else (unquote (next :: rest)).map fun found => (byte :: found.1, found.2)
  termination_by bytes => bytes.length
  decreasing_by
    all_goals simp only [List.length_drop, List.length_cons]; omega

theorem unquote_plain {byte : UInt8} (rest : Bytes) (hquote : byte ≠ 0x22)
    (hescape : byte ≠ 0x5C) :
    unquote (byte :: rest) = (unquote rest).map fun found => (byte :: found.1, found.2) := by
  cases rest with
  | nil => simp [unquote, hquote]
  | cons next rest => rw [unquote, if_neg hquote, if_neg hescape]

theorem unquote_quoteByte (byte : UInt8) (rest : Bytes) :
    unquote (quoteByte byte ++ rest) =
      (unquote rest).map fun found => (byte :: found.1, found.2) := by
  rw [quoteByte]
  split
  next h => simp [unquote, h]
  next hquote =>
    split
    next h => simp [unquote, h]
    next hescape =>
      split
      next h => simp [unquote, h]
      · exact unquote_plain rest hquote hescape

theorem unquote_quote (bytes rest : Bytes) :
    unquote (quote bytes ++ rest) = some (bytes, rest) := by
  induction bytes with
  | nil => cases rest <;> simp [quote, unquote]
  | cons byte bytes ih =>
      rw [quote, List.flatMap_cons, List.append_assoc, List.append_assoc, unquote_quoteByte,
        ← List.append_assoc, ← quote, ih]
      rfl

section Lists

variable {α : Type} (encode : α → Bytes) (decode : Bytes → Option (α × Bytes))

def encodeAll : List α → Bytes
  | [] => [0]
  | item :: items => 1 :: (encode item ++ encodeAll items)

def decodeAll : Nat → Bytes → Option (List α × Bytes)
  | _, 0 :: bytes => some ([], bytes)
  | count + 1, 1 :: bytes => do
      let (item, bytes) ← decode bytes
      let (items, bytes) ← decodeAll count bytes
      return (item :: items, bytes)
  | _, _ => none

theorem decodeAll_encodeAll
    (h : ∀ item rest, decode (encode item ++ rest) = some (item, rest))
    (items : List α) (rest : Bytes) {count : Nat}
    (hcount : items.length ≤ count) :
    decodeAll decode count (encodeAll encode items ++ rest) = some (items, rest) := by
  induction items generalizing count with
  | nil => simp [encodeAll, decodeAll]
  | cons item items ih =>
      obtain ⟨count, rfl⟩ := Nat.exists_eq_succ_of_ne_zero (show count ≠ 0 by simp at hcount; omega)
      simp only [encodeAll, List.cons_append, List.append_assoc, decodeAll, h, Option.bind_eq_bind,
        Option.bind_some, ih (Nat.le_of_succ_le_succ hcount)]
      rfl

theorem length_le_encodeAll (items : List α) : items.length ≤ (encodeAll encode items).length := by
  induction items with
  | nil => simp [encodeAll]
  | cons item items ih =>
      simp only [encodeAll, List.length_cons, List.length_append]
      omega

variable {encode decode}

theorem decodeAll_length (h : ∀ item rest, decode (encode item ++ rest) = some (item, rest))
    (items : List α) (rest : Bytes) :
    decodeAll decode (encodeAll encode items ++ rest).length (encodeAll encode items ++ rest) =
      some (items, rest) := by
  have hlength := length_le_encodeAll encode items
  refine decodeAll_encodeAll encode decode h items rest ?_
  rw [List.length_append]
  omega

end Lists

def pairs (values : QuorumKV.Session.Values) : List (Bytes × Bytes) :=
  (values.keys.sort (· ≤ ·)).map fun key => (key, (values.lookup key).getD [])

def ofPairs (found : List (Bytes × Bytes)) : QuorumKV.Session.Values :=
  found.foldl (fun values pair => values.insert pair.1 pair.2) ∅

theorem ofPairs_pairs (values : QuorumKV.Session.Values) : ofPairs (pairs values) = values := by
  have hlookup : ∀ (keys : List Bytes) (base : QuorumKV.Session.Values) (key : Bytes),
      ((keys.map fun key => (key, (values.lookup key).getD [])).foldl
        (fun found pair => found.insert pair.1 pair.2) base).lookup key =
        if key ∈ keys then some ((values.lookup key).getD []) else base.lookup key := by
    intro keys
    induction keys with
    | nil => simp
    | cons first keys ih =>
        intro base key
        rw [List.map_cons, List.foldl_cons, ih]
        by_cases hkey : key = first
        · subst hkey
          simp [Finmap.lookup_insert]
        · simp [hkey, Finmap.lookup_insert_of_ne _ hkey]
  apply Finmap.ext_lookup
  intro key
  rw [ofPairs, pairs, hlookup]
  cases hkey : values.lookup key with
  | none =>
      have : key ∉ values := Finmap.lookup_eq_none.mp hkey
      simp [Finmap.mem_keys, this]
  | some value =>
      have : key ∈ values := Finmap.mem_of_lookup_eq_some hkey
      simp [Finmap.mem_keys, this]

def encodePair (pair : Bytes × Bytes) : Bytes := quote pair.1 ++ quote pair.2

def decodePair (bytes : Bytes) : Option ((Bytes × Bytes) × Bytes) := do
  let (key, bytes) ← unquote bytes
  let (value, bytes) ← unquote bytes
  return ((key, value), bytes)

def encodeBool (flag : Bool) : UInt8 := if flag then 1 else 0

def encodeSession (session : Session) : Bytes :=
  session.id.bytes ++ (putUint64 session.lastSequence ++
    [encodeBool session.closed, session.lastResult, encodeBool session.lastDeleteExisted])

def decodeSession (bytes : Bytes) : Option (Session × Bytes) :=
  match slice bytes 24 27 with
  | [closed, result, existed] => some (
      { id := Wal.copySessionID (slice bytes 0 16)
        closed := closed == 1
        lastSequence := uint64 (slice bytes 16 24)
        lastResult := result
        lastDeleteExisted := existed == 1 }, bytes.drop 27)
  | _ => none

theorem decodeSession_encodeSession (session : Session) (rest : Bytes) :
    decodeSession (encodeSession session ++ rest) = some (session, rest) := by
  obtain ⟨id, closed, sequence, result, existed⟩ := session
  have hid := id.length_eq
  generalize hencoded : encodeSession _ ++ rest = bytes
  simp only [encodeSession, List.append_assoc] at hencoded
  have hidField : slice bytes 0 16 = id.bytes :=
    slice_field [] id.bytes _ hencoded.symm rfl (by simp [hid])
  have hsequence : slice bytes 16 24 = putUint64 sequence :=
    slice_field id.bytes _ _ hencoded.symm hid (by simp)
  have hflags : slice bytes 24 27 = [encodeBool closed, result, encodeBool existed] :=
    slice_field (id.bytes ++ putUint64 sequence) _ rest (by rw [← hencoded]; simp)
      (by simp [hid]) rfl
  have hrest : bytes.drop 27 = rest := by
    rw [← hencoded, ← List.append_assoc, ← List.append_assoc,
      List.drop_left' (by simp [hid])]
  rw [decodeSession, hflags, hidField, hsequence, hrest]
  cases closed <;> cases existed <;> simp [encodeBool]

def encodeFields (state : State) : Bytes :=
  quote state.identity.nodeID ++ (encodeAll quote state.identity.memberIDs ++
    (putUint64 (UInt64.ofNat state.includedIndex) ++ (putUint64 (UInt64.ofNat state.includedTerm) ++
      (encodeAll encodePair (pairs state.values) ++ encodeAll encodeSession state.sessions))))

def decodeFields (bytes : Bytes) : Option (State × Bytes) := do
  let (clusterID, bytes) ← unquote bytes
  let (nodeID, bytes) ← unquote bytes
  let (memberIDs, bytes) ← decodeAll unquote bytes.length bytes
  let index := uint64 (slice bytes 0 8)
  let term := uint64 (slice bytes 8 16)
  let bytes := bytes.drop 16
  let (values, bytes) ← decodeAll decodePair bytes.length bytes
  let (sessions, bytes) ← decodeAll decodeSession bytes.length bytes
  return (
    { identity := ⟨clusterID, nodeID, memberIDs⟩
      includedIndex := index.toNat
      includedTerm := term.toNat
      values := ofPairs values
      sessions := sessions }, bytes)

theorem decodeFields_encodeFields {state : State} {clusterID : Bytes}
    (h : state.Encodable)
    (hcluster : unquote (clusterID ++ encodeFields state) =
      some (state.identity.clusterID, encodeFields state)) :
    decodeFields (clusterID ++ encodeFields state) = some (state, []) := by
  have hpair : ∀ pair rest, decodePair (encodePair pair ++ rest) = some (pair, rest) := by
    intro pair rest
    simp [decodePair, encodePair, unquote_quote]
  have hindex : (UInt64.ofNat state.includedIndex).toNat = state.includedIndex := by
    rw [UInt64.toNat_ofNat', Nat.mod_eq_of_lt h.includedIndex]
  have hterm : (UInt64.ofNat state.includedTerm).toNat = state.includedTerm := by
    rw [UInt64.toNat_ofNat', Nat.mod_eq_of_lt h.includedTerm]
  generalize hrest : encodeAll encodePair (pairs state.values) ++
    encodeAll encodeSession state.sessions = rest
  have hnumbers : ∀ index term : UInt64,
      slice (putUint64 index ++ (putUint64 term ++ rest)) 0 8 = putUint64 index ∧
      slice (putUint64 index ++ (putUint64 term ++ rest)) 8 16 = putUint64 term ∧
      (putUint64 index ++ (putUint64 term ++ rest)).drop 16 = rest := by
    intro index term
    refine ⟨slice_field [] _ _ rfl rfl (by simp),
      slice_field (putUint64 index) _ rest rfl (by simp) (by simp), ?_⟩
    rw [← List.append_assoc, List.drop_left' (by simp)]
  have hsessions := decodeAll_length decodeSession_encodeSession state.sessions []
  rw [List.append_nil] at hsessions
  rw [decodeFields, hcluster]
  simp only [encodeFields, hrest, Option.bind_eq_bind, Option.bind_some, unquote_quote,
    decodeAll_length unquote_quote, hnumbers, uint64_putUint64, hindex, hterm]
  rw [← hrest, decodeAll_length hpair, Option.bind_some, hsessions]
  simp [ofPairs_pairs]

/-- A codec that satisfies what is assumed of `encoding/json`. -/
def escapedStates : StateJSON where
  marshal state := quote state.identity.clusterID ++ encodeFields state
  decode := decodeFields
  decode_marshal _ h := decodeFields_encodeFields h (unquote_quote _ _)

/-! ## Results -/

/-- A state whose cluster identity is made of `count` characters `<`. -/
def markedState (count : Nat) : State :=
  { identity := ⟨List.replicate count 0x3C, [110], [[109], [110], [111]]⟩
    includedIndex := 0
    includedTerm := 0
    values := ∅
    sessions := [] }

theorem validUTF8_append {left right : Bytes} (hleft : ValidUTF8 left)
    (hright : ValidUTF8 right) : ValidUTF8 (left ++ right) := by
  have hbytes : (⟨(left ++ right).toArray⟩ : ByteArray) = ⟨left.toArray⟩ ++ ⟨right.toArray⟩ :=
    ByteArray.ext (by simp)
  rw [ValidUTF8, hbytes]
  exact ByteArray.IsValidUTF8.append hleft hright

theorem markedState_encodable (count : Nat) : (markedState count).Encodable := by
  refine ⟨?_, ⟨['n'], rfl⟩, ?_, fun _ hkey => absurd hkey (Finmap.notMem_empty),
    Nat.two_pow_pos 64, Nat.two_pow_pos 64⟩
  · induction count with
    | zero => exact ByteArray.isValidUTF8_empty
    | succ count ih =>
        have hmark : ValidUTF8 [0x3C] := ⟨['<'], rfl⟩
        exact validUTF8_append hmark ih
  · intro id hid
    simp only [markedState, List.mem_cons, List.not_mem_nil, or_false] at hid
    rcases hid with rfl | rfl | rfl
    · exact ⟨['m'], rfl⟩
    · exact ⟨['n'], rfl⟩
    · exact ⟨['o'], rfl⟩

theorem markedState_valid (count : Nat) : validateState (markedState (count + 1)) = none := by
  have hblank : blank (List.replicate (count + 1) 0x3C) = false := by
    rw [List.replicate_succ, blank] <;> simp
  simp only [validateState, markedState, hblank]
  decide

theorem unquote_marks (count : Nat) (rest : Bytes) :
    unquote (List.replicate count 0x3C ++ 0x22 :: rest) =
      some (List.replicate count 0x3C, rest) := by
  induction count with
  | zero => cases rest <;> simp [unquote]
  | succ count ih =>
      rw [List.replicate_succ, List.cons_append, unquote_plain _ (by decide) (by decide), ih]
      rfl

/-- The state with every `<` written as itself, which `json.Marshal` never does. -/
def markedPayload (count : Nat) : Bytes :=
  (List.replicate count 0x3C ++ [0x22]) ++ encodeFields (markedState 0)

theorem markedPayload_length (count : Nat) :
    (markedPayload count).length = count + (markedPayload 0).length := by
  simp only [markedPayload, List.length_append, List.length_replicate]
  omega

theorem decode_marked {count : Nat} (hsize : (markedPayload (count + 1)).length ≤ maxPayloadSize) :
    decode escapedStates (header (markedPayload (count + 1)) ++ markedPayload (count + 1)) =
      .ok (markedState (count + 1)) := by
  refine decode_eq_ok.mpr ⟨_, rfl, hsize, ?_, markedState_valid count⟩
  have hfields : encodeFields (markedState (count + 1)) = encodeFields (markedState 0) := rfl
  have hdecode : decodeFields (markedPayload (count + 1)) = some (markedState (count + 1), []) := by
    rw [markedPayload, ← hfields]
    refine decodeFields_encodeFields (markedState_encodable _) ?_
    rw [List.append_assoc]
    exact unquote_marks _ _
  simp [decodePayload, escapedStates, hdecode]

/--
However far the JSON decoder reads ahead, the streaming reader accepts and refuses
what `decode` does, with the same state or error, and its handle carries the
length and the checksum of all the bytes.
-/
theorem snapshot_readers_agree (json : StateJSON) (taken : Nat) (contents : Bytes) :
    (∀ handle state, validateFile json taken contents = .ok (handle, state) ↔
      decode json contents = .ok state ∧
        handle = ⟨contents.length, checksumIEEE contents⟩) ∧
    ∀ error, validateFile json taken contents = .error error ↔
      decode json contents = .error error := by
  rw [validateFile_eq]
  cases decode json contents with
  | error e => simp [Except.map]
  | ok state =>
      refine ⟨fun handle other => ?_, by simp [Except.map]⟩
      simp only [Except.map, Except.ok.injEq, Prod.mk.injEq]
      exact ⟨fun h => ⟨h.2, h.1.symm⟩, fun h => ⟨h.2.symm, h.1⟩⟩

end QuorumKV.Snapshot
