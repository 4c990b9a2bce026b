import QuorumKV.Runtime.Server
import QuorumKV.Snapshot.File

/-!
# Transferring a Snapshot file

The sender's side is `Open` and `sendSnapshot`, the receiver's the staging code at
the head of `runRaft`, which collects the bytes of one file in memory.  Chunks may
come from any number of files and arrive in any order and any number of times; the
receiver tells files apart by position, length and checksum alone.  The last
section relates this to `Runtime.stageChunk`, which counts the bytes only.
-/

namespace QuorumKV.Snapshot

open Foundation
open QuorumKV.Raft (Bytes InstallSnapshot NodeID)
open QuorumKV.Runtime (snapshotClusterMatches)
open QuorumKV.Wal (checksumIEEE slice slice_length)

/-! ## Sending -/

/-- A file of the sender's directory, under the position in its name. -/
structure SnapshotFile where
  index : Nat
  term : Nat
  contents : Bytes
  deriving DecidableEq

/-- `Open`: the file validates, and its state is at the position of its name. -/
def openSnapshot (json : StateJSON) (taken : Nat) (file : SnapshotFile) : Option Handle :=
  match validateFile json taken file.contents with
  | .error _ => none
  | .ok (handle, state) =>
      if state.includedIndex ≠ file.index ∨ state.includedTerm ≠ file.term then none
      else some handle

def chunkSize : Nat := 64 * 2 ^ 10

/-- An InstallSnapshot request before it is staged. -/
structure ChunkRequest where
  sender : NodeID
  term : Nat
  requestID : Nat
  snapshotIndex : Nat
  snapshotTerm : Nat
  length : Nat
  checksum : UInt32
  offset : Nat
  data : Bytes
  done : Bool
  deriving DecidableEq

/-- The chunk `sendSnapshot` reads at `offset`. -/
def sendSnapshot (json : StateJSON) (taken : Nat) (file : SnapshotFile) (sender : NodeID)
    (term requestID offset : Nat) : Option ChunkRequest :=
  match openSnapshot json taken file with
  | none => none
  | some handle =>
      if offset > handle.length then none
      else
        let last := min (offset + chunkSize) handle.length
        some
          { sender := sender
            term := term
            requestID := requestID
            snapshotIndex := file.index
            snapshotTerm := file.term
            length := handle.length
            checksum := handle.checksum
            offset := offset
            data := slice file.contents offset last
            done := last == handle.length }

/-! ## Staging -/

/-- `incomingSnapshot`. -/
structure Staging where
  index : Nat
  term : Nat
  length : Nat
  checksum : UInt32
  data : Bytes := []
  deriving DecidableEq

def ChunkRequest.passed (request : ChunkRequest) (success : Bool) (nextOffset : Nat) :
    InstallSnapshot :=
  { sender := request.sender
    term := request.term
    requestID := request.requestID
    snapshotIndex := request.snapshotIndex
    snapshotTerm := request.snapshotTerm
    offset := request.offset
    done := request.done
    success := success
    nextOffset := nextOffset }

/-- What staging leaves: the transfer, the request for the core, and a finished Snapshot. -/
structure Staged where
  incoming : Option Staging
  request : InstallSnapshot
  ready : Option State := none

/-- The state of the finished transfer, when all the checks of `valid` hold. -/
def Staging.received (json : StateJSON) (identity : Identity) (staging : Staging) :
    Option State :=
  match decode json staging.data with
  | .error _ => none
  | .ok state =>
      if staging.data.length = staging.length ∧ checksumIEEE staging.data = staging.checksum ∧
          state.includedIndex = staging.index ∧ state.includedTerm = staging.term ∧
          snapshotClusterMatches state.identity identity then
        some state
      else none

def Staging.Refuses (staging : Staging) (request : ChunkRequest) : Prop :=
  staging.index ≠ request.snapshotIndex ∨ staging.term ≠ request.snapshotTerm ∨
    staging.length ≠ request.length ∨ staging.checksum ≠ request.checksum ∨
    request.offset ≠ staging.data.length ∨
    request.offset + request.data.length > staging.length

instance (staging : Staging) (request : ChunkRequest) : Decidable (staging.Refuses request) :=
  inferInstanceAs (Decidable (_ ∨ _))

def begun (incoming : Option Staging) (request : ChunkRequest) : Option Staging :=
  if request.offset = 0 then
    some
      { index := request.snapshotIndex
        term := request.snapshotTerm
        length := request.length
        checksum := request.checksum }
  else incoming

/-- Stage a request; a Snapshot that cannot be saved ends the loop with the error. -/
def stage (json : StateJSON) (identity : Identity) (incoming : Option Staging)
    (request : ChunkRequest) : Except SaveError Staged :=
  match begun incoming request with
  | none => .ok { incoming := none, request := request.passed false 0 }
  | some staging =>
      if staging.Refuses request then
        .ok { incoming := some staging, request := request.passed false 0 }
      else
        let staging := { staging with data := staging.data ++ request.data }
        if request.done = false then
          .ok
            { incoming := some staging
              request := request.passed true staging.data.length }
        else
          match staging.received json identity with
          | none => .ok { incoming := none, request := request.passed false 0 }
          | some state =>
              let state := { state with identity := identity }
              match save json state with
              | .error e => .error e
              | .ok _ =>
                  .ok
                    { incoming := none
                      request := request.passed true staging.data.length
                      ready := some state }

def stageAll (json : StateJSON) (identity : Identity) (incoming : Option Staging) :
    List ChunkRequest → Except SaveError (Option Staging)
  | [] => .ok incoming
  | request :: requests =>
      match stage json identity incoming request with
      | .error e => .error e
      | .ok staged => stageAll json identity staged.incoming requests

/-- Rounds of `sendSnapshot` and `stage`, each at the offset the last one answered. -/
def transfer (json : StateJSON) (taken : Nat) (file : SnapshotFile) (identity : Identity)
    (sender : NodeID) (term : Nat) (requestID : Nat → Nat) :
    Nat → Option Staging → Nat → Option (ChunkRequest × Except SaveError Staged)
  | 0, _, _ => none
  | rounds + 1, incoming, offset =>
      match sendSnapshot json taken file sender term (requestID rounds) offset with
      | none => none
      | some request =>
          if request.done then some (request, stage json identity incoming request)
          else
            match stage json identity incoming request with
            | .error e => some (request, .error e)
            | .ok staged => transfer json taken file identity sender term requestID rounds
                staged.incoming staged.request.nextOffset

theorem Staging.received_eq_some {json : StateJSON} {identity : Identity} {staging : Staging}
    {state : State} :
    staging.received json identity = some state ↔
      decode json staging.data = .ok state ∧ staging.data.length = staging.length ∧
        checksumIEEE staging.data = staging.checksum ∧ state.includedIndex = staging.index ∧
        state.includedTerm = staging.term ∧
        snapshotClusterMatches state.identity identity = true := by
  rw [Staging.received]
  cases decode json staging.data with
  | error e => simp
  | ok decoded =>
      simp only [Option.ite_none_right_eq_some, Option.some.injEq, Except.ok.injEq]
      constructor
      · rintro ⟨hchecks, rfl⟩
        exact ⟨rfl, hchecks⟩
      · rintro ⟨rfl, hchecks⟩
        exact ⟨hchecks, rfl⟩

/-! ## What a chunk says of its file -/

theorem openSnapshot_eq_some {json : StateJSON} {taken : Nat} {file : SnapshotFile}
    {handle : Handle} :
    openSnapshot json taken file = some handle ↔
      handle = ⟨file.contents.length, checksumIEEE file.contents⟩ ∧
        ∃ state, decode json file.contents = .ok state ∧ state.includedIndex = file.index ∧
          state.includedTerm = file.term := by
  rw [openSnapshot, validateFile_eq]
  cases decode json file.contents with
  | error e => simp [Except.map]
  | ok state =>
      simp only [Except.map, Except.ok.injEq, exists_eq_left']
      split
      next hother =>
        constructor
        · intro h
          simp at h
        · rintro ⟨-, hindex, hterm⟩
          exact absurd (hother.resolve_left (not_not.mpr hindex)) (not_not.mpr hterm)
      next hsame =>
        rw [not_or, not_not, not_not] at hsame
        rw [Option.some.injEq, eq_comm]
        exact ⟨fun h => ⟨h, hsame⟩, And.left⟩

/-- The request was read from the file, whose state is at the announced position. -/
structure ChunkRequest.Of (json : StateJSON) (request : ChunkRequest) (file : SnapshotFile) :
    Prop where
  snapshotIndex : request.snapshotIndex = file.index
  snapshotTerm : request.snapshotTerm = file.term
  length : request.length = file.contents.length
  checksum : request.checksum = checksumIEEE file.contents
  offset_le : request.offset ≤ file.contents.length
  data : request.data = slice file.contents request.offset
    (min (request.offset + chunkSize) file.contents.length)
  done : request.done = true ↔ file.contents.length ≤ request.offset + chunkSize
  opens : ∃ state, decode json file.contents = .ok state ∧ state.includedIndex = file.index ∧
    state.includedTerm = file.term

theorem sendSnapshot_of {json : StateJSON} {taken : Nat} {file : SnapshotFile} {sender : NodeID}
    {term requestID offset : Nat} {request : ChunkRequest}
    (h : sendSnapshot json taken file sender term requestID offset = some request) :
    request.Of json file ∧ request.offset = offset := by
  rw [sendSnapshot] at h
  split at h
  · simp at h
  next handle hopen =>
    obtain ⟨rfl, hstate⟩ := openSnapshot_eq_some.mp hopen
    split at h
    · simp at h
    next hoffset =>
      rw [Option.some.injEq] at h
      subst h
      refine ⟨⟨rfl, rfl, rfl, rfl, Nat.not_lt.mp hoffset, rfl, ?_, hstate⟩, rfl⟩
      simp only [beq_iff_eq]
      omega

section Chunk

variable {json : StateJSON} {request : ChunkRequest} {file : SnapshotFile}

theorem ChunkRequest.Of.append (h : request.Of json file) :
    file.contents.take request.offset ++ request.data =
      file.contents.take (min (request.offset + chunkSize) file.contents.length) := by
  have hoffset := h.offset_le
  have hsplit : min (request.offset + chunkSize) file.contents.length =
      request.offset + (min (request.offset + chunkSize) file.contents.length - request.offset) := by
    omega
  rw [h.data, slice]
  conv_rhs => rw [hsplit, List.take_add]

theorem ChunkRequest.Of.last (h : request.Of json file) (hdone : request.done = true) :
    file.contents.take request.offset ++ request.data = file.contents := by
  have hend := h.done.mp hdone
  rw [h.append, Nat.min_eq_right hend, List.take_length]

end Chunk

/-! ## Any delivery -/

def Distinct (files : Set SnapshotFile) : Prop :=
  ∀ file ∈ files, ∀ other ∈ files, file.index = other.index → file.term = other.term →
    file.contents.length = other.contents.length →
    checksumIEEE file.contents = checksumIEEE other.contents → file = other

def Sent (json : StateJSON) (files : Set SnapshotFile) (request : ChunkRequest) : Prop :=
  ∃ file ∈ files, ∃ taken sender term requestID offset,
    sendSnapshot json taken file sender term requestID offset = some request

/-- The file the transfer is named after. -/
structure Staging.Names (staging : Staging) (file : SnapshotFile) : Prop where
  index : staging.index = file.index
  term : staging.term = file.term
  length : staging.length = file.contents.length
  checksum : staging.checksum = checksumIEEE file.contents

def Holding (files : Set SnapshotFile) (incoming : Option Staging) : Prop :=
  ∀ staging ∈ incoming, ∃ file ∈ files, staging.Names file ∧ staging.data <+: file.contents

section Delivery

variable {json : StateJSON} {identity : Identity} {files : Set SnapshotFile}
  {incoming : Option Staging} {request : ChunkRequest} {file : SnapshotFile}

theorem Holding.begun (hholding : Holding files incoming) (hmem : file ∈ files)
    (hof : request.Of json file) : Holding files (begun incoming request) := by
  rw [Snapshot.begun]
  split
  · intro staging hstaging
    cases hstaging
    exact ⟨file, hmem, ⟨hof.snapshotIndex, hof.snapshotTerm, hof.length, hof.checksum⟩,
      List.nil_prefix⟩
  · exact hholding

theorem Holding.continues {staging : Staging} (hdistinct : Distinct files)
    (hholding : Holding files (some staging)) (hmem : file ∈ files) (hof : request.Of json file)
    (haccepts : ¬ staging.Refuses request) :
    staging.Names file ∧ staging.data = file.contents.take request.offset := by
  obtain ⟨named, hnamed, hnames, hprefix⟩ := hholding staging rfl
  rw [Staging.Refuses] at haccepts
  push Not at haccepts
  obtain ⟨hindex, hterm, hlength, hchecksum, hoffset, -⟩ := haccepts
  have hsame : named = file := by
    refine hdistinct named hnamed file hmem ?_ ?_ ?_ ?_
    · rw [← hnames.index, hindex, hof.snapshotIndex]
    · rw [← hnames.term, hterm, hof.snapshotTerm]
    · rw [← hnames.length, hlength, hof.length]
    · rw [← hnames.checksum, hchecksum, hof.checksum]
  subst hsame
  exact ⟨hnames, by rw [hoffset]; exact List.prefix_iff_eq_take.mp hprefix⟩

structure Delivers (json : StateJSON) (identity : Identity) (files : Set SnapshotFile)
    (incoming : Option Staging) (request : ChunkRequest) (staged : Staged) : Prop where
  /-- The staged bytes are a prefix of the file they are named after. -/
  holding : Holding files staged.incoming
  /-- The core is told of a complete Snapshot only when it has the whole file. -/
  complete : staged.request.success = true → staged.request.done = true →
    ∃ file ∈ files, ∃ staging, begun incoming request = some staging ∧ staging.Names file ∧
      staging.data ++ request.data = file.contents ∧
      staged.request.nextOffset = file.contents.length ∧
      ∃ state, decode json file.contents = .ok state ∧
        state.includedIndex = staged.request.snapshotIndex ∧
        state.includedTerm = staged.request.snapshotTerm ∧
        snapshotClusterMatches state.identity identity = true ∧
        staged.ready = some { state with identity := identity }
  /-- Any other chunk is refused, or answered with how much is staged. -/
  partly : ¬ (staged.request.success = true ∧ staged.request.done = true) →
    staged.ready = none ∧
      ((staged.request.success = false ∧ staged.request.nextOffset = 0) ∨
        ∃ staging, staged.incoming = some staging ∧
          staged.request.nextOffset = staging.data.length)

theorem stage_delivers {staged : Staged} (hdistinct : Distinct files)
    (hholding : Holding files incoming) (hmem : file ∈ files) (hof : request.Of json file)
    (hstage : stage json identity incoming request = .ok staged) :
    Delivers json identity files incoming request staged := by
  have hbegun := hholding.begun hmem hof
  rw [stage] at hstage
  split at hstage
  · cases hstage
    exact ⟨by simp [Holding], by simp [ChunkRequest.passed], by simp [ChunkRequest.passed]⟩
  next staging hstaging =>
    rw [hstaging] at hbegun
    split at hstage
    · cases hstage
      exact ⟨hbegun, by simp [ChunkRequest.passed], by simp [ChunkRequest.passed]⟩
    next haccepts =>
      obtain ⟨hnames, hdata⟩ := hbegun.continues hdistinct hmem hof haccepts
      simp only at hstage
      split at hstage
      next hmore =>
        cases hstage
        refine ⟨?_, by simp [ChunkRequest.passed, hmore], fun _ => ⟨rfl, .inr ⟨_, rfl, rfl⟩⟩⟩
        intro next hnext
        cases hnext
        refine ⟨file, hmem, ⟨hnames.index, hnames.term, hnames.length, hnames.checksum⟩, ?_⟩
        simp only [hdata, hof.append]
        exact List.take_prefix _ _
      next hlast =>
        have hdone : request.done = true := by simpa using hlast
        have hwhole : staging.data ++ request.data = file.contents := by
          rw [hdata, hof.last hdone]
        split at hstage
        · cases hstage
          exact ⟨by simp [Holding], by simp [ChunkRequest.passed], by simp [ChunkRequest.passed]⟩
        next state hreceived =>
          split at hstage
          · simp at hstage
          · cases hstage
            rw [Staging.received_eq_some] at hreceived
            simp only [hwhole] at hreceived
            obtain ⟨hdecode, -, -, hindex, hterm, hcluster⟩ := hreceived
            refine ⟨by simp [Holding], fun _ _ => ?_, fun hpartial => absurd ⟨rfl, hdone⟩ hpartial⟩
            refine ⟨file, hmem, staging, hstaging, hnames, hwhole,
              by simp [ChunkRequest.passed, hwhole], state, hdecode, ?_, ?_, hcluster, rfl⟩
            · rw [hindex, hnames.index, ← hof.snapshotIndex]
              rfl
            · rw [hterm, hnames.term, ← hof.snapshotTerm]
              rfl

theorem stageAll_holding {requests : List ChunkRequest} {final : Option Staging}
    (hdistinct : Distinct files) (hholding : Holding files incoming)
    (hsent : ∀ request ∈ requests, Sent json files request)
    (hstaged : stageAll json identity incoming requests = .ok final) : Holding files final := by
  induction requests generalizing incoming with
  | nil =>
      cases hstaged
      exact hholding
  | cons request requests ih =>
      rw [stageAll] at hstaged
      split at hstaged
      · simp at hstaged
      next staged hstage =>
        obtain ⟨file, hmem, taken, sender, term, requestID, offset, hrequest⟩ :=
          hsent request List.mem_cons_self
        have hdelivers := stage_delivers hdistinct hholding hmem (sendSnapshot_of hrequest).1 hstage
        exact ih hdelivers.holding (fun other hother => hsent other (List.mem_cons_of_mem _ hother))
          hstaged

end Delivery

/-! ## A transfer without loss -/

section Transfer

variable {json : StateJSON} {taken : Nat} {file : SnapshotFile} {identity : Identity}
  {sender : NodeID} {term : Nat} {requestID : Nat → Nat}

structure SnapshotFile.Opens (json : StateJSON) (file : SnapshotFile) (state : State) : Prop where
  decode : decode json file.contents = .ok state
  index : state.includedIndex = file.index
  term : state.includedTerm = file.term

theorem SnapshotFile.Opens.sends {state : State} (h : file.Opens json state) {offset : Nat}
    (hoffset : offset ≤ file.contents.length) (taken : Nat) (sender : NodeID) (term id : Nat) :
    sendSnapshot json taken file sender term id offset = some
      { sender := sender
        term := term
        requestID := id
        snapshotIndex := file.index
        snapshotTerm := file.term
        length := file.contents.length
        checksum := checksumIEEE file.contents
        offset := offset
        data := slice file.contents offset (min (offset + chunkSize) file.contents.length)
        done := decide (file.contents.length ≤ offset + chunkSize) } := by
  have hopen : openSnapshot json taken file =
      some ⟨file.contents.length, checksumIEEE file.contents⟩ :=
    openSnapshot_eq_some.mpr ⟨rfl, state, h.decode, h.index, h.term⟩
  have hdone : (min (offset + chunkSize) file.contents.length == file.contents.length) =
      decide (file.contents.length ≤ offset + chunkSize) := by
    rw [Bool.eq_iff_iff, beq_iff_eq, decide_eq_true_iff]
    omega
  simp only [sendSnapshot, hopen, if_neg (Nat.not_lt.mpr hoffset), hdone]

/-- The transfer as the last answer left it: the first `offset` bytes are there. -/
def Progressed (file : SnapshotFile) (incoming : Option Staging) (offset : Nat) : Prop :=
  offset = 0 ∨ ∃ staging, incoming = some staging ∧ staging.Names file ∧
    staging.data = file.contents.take offset

theorem Progressed.accepts {incoming : Option Staging} {offset : Nat} {request : ChunkRequest}
    (h : Progressed file incoming offset) (hof : request.Of json file)
    (hoffset : request.offset = offset) :
    ∃ staging, begun incoming request = some staging ∧ staging.Names file ∧
      staging.data = file.contents.take offset ∧ ¬ staging.Refuses request := by
  have hfits : request.offset + request.data.length ≤ file.contents.length := by
    have hle := hof.offset_le
    rw [hof.data, slice_length (Nat.min_le_right _ _)]
    omega
  have hkeeps : ∀ staging : Staging, staging.Names file →
      staging.data = file.contents.take offset → ¬ staging.Refuses request := by
    intro staging hnames hdata hrefuses
    have hlength : staging.data.length = offset := by
      rw [hdata, List.length_take, Nat.min_eq_left (hoffset ▸ hof.offset_le)]
    rcases hrefuses with h | h | h | h | h | h
    · exact h (hnames.index.trans hof.snapshotIndex.symm)
    · exact h (hnames.term.trans hof.snapshotTerm.symm)
    · exact h (hnames.length.trans hof.length.symm)
    · exact h (hnames.checksum.trans hof.checksum.symm)
    · exact h (hoffset.trans hlength.symm)
    · rw [hnames.length] at h
      omega
  rw [begun]
  split
  next hzero =>
    have hnames : Staging.Names ⟨request.snapshotIndex, request.snapshotTerm, request.length,
        request.checksum, []⟩ file :=
      ⟨hof.snapshotIndex, hof.snapshotTerm, hof.length, hof.checksum⟩
    have hnothing : ([] : Bytes) = file.contents.take offset := by
      rw [← hoffset, hzero, List.take_zero]
    exact ⟨_, rfl, hnames, hnothing, hkeeps _ hnames hnothing⟩
  next hnonzero =>
    obtain ⟨staging, hincoming, hnames, hdata⟩ := h.resolve_left (hoffset ▸ hnonzero)
    exact ⟨staging, hincoming, hnames, hdata, hkeeps staging hnames hdata⟩

theorem Progressed.stage_more {incoming : Option Staging} {offset : Nat} {request : ChunkRequest}
    (h : Progressed file incoming offset) (hof : request.Of json file)
    (hoffset : request.offset = offset) (hmore : request.done = false) (identity : Identity) :
    ∃ staged, stage json identity incoming request = .ok staged ∧
      staged.request.nextOffset = offset + chunkSize ∧
      offset + chunkSize < file.contents.length ∧
      Progressed file staged.incoming (offset + chunkSize) := by
  obtain ⟨staging, hbegun, hnames, hdata, haccepts⟩ := h.accepts hof hoffset
  have hlt : offset + chunkSize < file.contents.length := by
    rw [← Nat.not_le, ← hoffset, ← hof.done, hmore]
    simp
  have happend : staging.data ++ request.data = file.contents.take (offset + chunkSize) := by
    rw [hdata, ← hoffset, hof.append, hoffset, Nat.min_eq_left hlt.le]
  rw [stage, hbegun]
  simp only [if_neg haccepts, hmore, if_true, happend]
  refine ⟨_, rfl, ?_, hlt, .inr ⟨_, rfl, ?_, rfl⟩⟩
  · simp only [ChunkRequest.passed, List.length_take]
    omega
  · exact ⟨hnames.index, hnames.term, hnames.length, hnames.checksum⟩

theorem Staging.Names.received {staging : Staging} {state : State} (hnames : staging.Names file)
    (hopens : file.Opens json state) (identity : Identity) (received : State) :
    Staging.received json identity ⟨staging.index, staging.term, staging.length,
        staging.checksum, file.contents⟩ = some received ↔
      received = state ∧ snapshotClusterMatches state.identity identity = true := by
  rw [Staging.received_eq_some]
  simp only [hopens.decode, Except.ok.injEq]
  constructor
  · rintro ⟨rfl, -, -, -, -, hcluster⟩
    exact ⟨rfl, hcluster⟩
  · rintro ⟨rfl, hcluster⟩
    exact ⟨rfl, hnames.length.symm, hnames.checksum.symm, hopens.index.trans hnames.index.symm,
      hopens.term.trans hnames.term.symm, hcluster⟩

theorem Progressed.stage_last {incoming : Option Staging} {offset : Nat} {request : ChunkRequest}
    {state : State} (hopens : file.Opens json state) (h : Progressed file incoming offset)
    (hof : request.Of json file) (hoffset : request.offset = offset)
    (hdone : request.done = true) :
    (∀ staged, stage json identity incoming request = .ok staged →
      staged.request.done = true ∧ (staged.request.success = true ↔
        snapshotClusterMatches state.identity identity = true)) ∧
    ∀ e, stage json identity incoming request = .error e →
      save json { state with identity := identity } = .error e := by
  obtain ⟨staging, hbegun, hnames, hdata, haccepts⟩ := h.accepts hof hoffset
  have hwhole : staging.data ++ request.data = file.contents := by
    rw [hdata, ← hoffset, hof.last hdone]
  have hreceived := hnames.received hopens identity
  rw [stage, hbegun]
  simp only [if_neg haccepts, hdone, hwhole, Bool.true_eq_false, if_false]
  split
  next hnone =>
    have hother : ¬ snapshotClusterMatches state.identity identity = true := by
      intro hcluster
      rw [(hreceived state).mpr ⟨rfl, hcluster⟩] at hnone
      simp at hnone
    refine ⟨?_, by simp⟩
    intro staged hstaged
    cases hstaged
    exact ⟨hdone, by simpa [ChunkRequest.passed] using hother⟩
  next received hsome =>
    obtain ⟨rfl, hcluster⟩ := (hreceived received).mp hsome
    split
    next e hsave =>
      refine ⟨by simp, ?_⟩
      intro e' he'
      rw [hsave, ← Except.error.inj he']
    · refine ⟨?_, by simp⟩
      intro staged hstaged
      cases hstaged
      exact ⟨hdone, by simpa [ChunkRequest.passed] using hcluster⟩

structure Finishes (json : StateJSON) (file : SnapshotFile) (identity : Identity) (state : State)
    (request : ChunkRequest) (outcome : Except SaveError Staged) : Prop where
  of : request.Of json file
  done : request.done = true
  staged : ∀ staged, outcome = .ok staged → staged.request.done = true ∧
    (staged.request.success = true ↔ snapshotClusterMatches state.identity identity = true)
  unsaved : ∀ e, outcome = .error e → save json { state with identity := identity } = .error e

theorem transfer_finishes {state : State} (hopens : file.Opens json state) (rounds : Nat)
    {incoming : Option Staging} {offset : Nat} (h : Progressed file incoming offset)
    (hoffset : offset ≤ file.contents.length)
    (hrounds : file.contents.length ≤ offset + (rounds + 1) * chunkSize) :
    ∃ request outcome, transfer json taken file identity sender term requestID (rounds + 1)
      incoming offset = some (request, outcome) ∧
      Finishes json file identity state request outcome := by
  induction rounds generalizing incoming offset with
  | zero =>
      obtain ⟨request, hsend⟩ : ∃ request, sendSnapshot json taken file sender term (requestID 0)
          offset = some request := ⟨_, hopens.sends hoffset taken sender term (requestID 0)⟩
      obtain ⟨hof, hat⟩ := sendSnapshot_of hsend
      have hdone : request.done = true := hof.done.mpr (by omega)
      obtain ⟨hstaged, hunsaved⟩ := h.stage_last hopens hof hat hdone
      rw [transfer, hsend]
      simp only [hdone, if_true]
      exact ⟨_, _, rfl, hof, hdone, hstaged, hunsaved⟩
  | succ rounds ih =>
      obtain ⟨request, hsend⟩ : ∃ request, sendSnapshot json taken file sender term
          (requestID (rounds + 1)) offset = some request :=
        ⟨_, hopens.sends hoffset taken sender term (requestID (rounds + 1))⟩
      obtain ⟨hof, hat⟩ := sendSnapshot_of hsend
      rw [transfer, hsend]
      cases hdone : request.done with
      | true =>
          obtain ⟨hstaged, hunsaved⟩ := h.stage_last hopens hof hat hdone
          simp only [hdone, if_true]
          exact ⟨_, _, rfl, hof, hdone, hstaged, hunsaved⟩
      | false =>
          obtain ⟨staged, hstage, hnext, hlt, hprogressed⟩ := h.stage_more hof hat hdone identity
          simp only [hdone, Bool.false_eq_true, if_false, hstage, hnext]
          refine ih hprogressed hlt.le ?_
          rw [Nat.succ_mul] at hrounds
          omega

end Transfer

/-! ## Counting the bytes only -/

section Counting

variable {json : StateJSON} {config : Runtime.Config} {id : NodeID} {states : Set State}

def fileOf (json : StateJSON) (state : State) : SnapshotFile :=
  ⟨state.includedIndex, state.includedTerm, header (json.marshal state) ++ json.marshal state⟩

structure Counted (json : StateJSON) (config : Runtime.Config) (states : Set State) : Prop where
  encodable : ∀ state ∈ states, state.Encodable
  saved : ∀ state ∈ states, save json state = .ok (fileOf json state).contents
  length : ∀ state ∈ states, config.fileLength state = (fileOf json state).contents.length
  distinct : Distinct (Set.image (fileOf json) states)

inductive Mirrors (json : StateJSON) (states : Set State) :
    Option Staging → Option Runtime.Incoming → Prop
  | idle : Mirrors json states none none
  | under {staging : Staging} {state : State} (mem : state ∈ states)
      (names : staging.Names (fileOf json state))
      (data : staging.data <+: (fileOf json state).contents) :
      Mirrors json states (some staging) (some ⟨state, staging.data.length⟩)

/-- The request and the chunk the model sends for it. -/
structure ChunkRequest.Mirrors (json : StateJSON) (request : ChunkRequest)
    (chunk : Runtime.Chunk) : Prop where
  of : request.Of json (fileOf json chunk.file)
  sender : request.sender = chunk.sender
  term : request.term = chunk.term
  requestID : request.requestID = chunk.requestID
  offset : request.offset = chunk.offset
  size : request.data.length = chunk.size
  done : request.done = chunk.done

theorem ChunkRequest.Mirrors.passed {request : ChunkRequest} {chunk : Runtime.Chunk}
    (h : request.Mirrors json chunk) (success : Bool) (nextOffset : Nat) :
    request.passed success nextOffset = chunk.request success nextOffset := by
  simp only [ChunkRequest.passed, Runtime.Chunk.request, h.of.snapshotIndex, h.of.snapshotTerm,
    h.sender, h.term, h.requestID, h.offset, h.done, fileOf]

theorem Counted.eq_of_names {staging : Staging} {state other : State}
    (h : Counted json config states) (hstate : state ∈ states) (hother : other ∈ states)
    (hnames : staging.Names (fileOf json state)) (hnames' : staging.Names (fileOf json other)) :
    state = other := by
  have hfile : fileOf json state = fileOf json other := by
    refine h.distinct _ ⟨state, hstate, rfl⟩ _ ⟨other, hother, rfl⟩ ?_ ?_ ?_ ?_
    · rw [← hnames.index, hnames'.index]
    · rw [← hnames.term, hnames'.term]
    · rw [← hnames.length, hnames'.length]
    · rw [← hnames.checksum, hnames'.checksum]
  have hdecode := decode_save (h.encodable state hstate) (h.saved state hstate)
  rw [hfile, decode_save (h.encodable other hother) (h.saved other hother)] at hdecode
  exact (Except.ok.inj hdecode).symm

theorem Counted.refuses_iff {staging : Staging} {state : State} {request : ChunkRequest}
    {chunk : Runtime.Chunk} (h : Counted json config states) (hmem : state ∈ states)
    (hchunk : chunk.file ∈ states) (hnames : staging.Names (fileOf json state))
    (hrequest : request.Mirrors json chunk) :
    staging.Refuses request ↔ state ≠ chunk.file ∨ chunk.offset ≠ staging.data.length ∨
      chunk.offset + chunk.size > config.fileLength chunk.file := by
  have hof := hrequest.of
  rw [Staging.Refuses, hrequest.offset, hrequest.size, h.length _ hchunk, hof.snapshotIndex,
    hof.snapshotTerm, hof.length, hof.checksum]
  by_cases hsame : state = chunk.file
  · subst hsame
    simp [hnames.index, hnames.term, hnames.length, hnames.checksum]
  · simp only [ne_eq, hsame, not_false_eq_true, true_or, iff_true]
    by_contra haccepts
    push Not at haccepts
    obtain ⟨hindex, hterm, hlength, hchecksum, -⟩ := haccepts
    exact hsame (h.eq_of_names hmem hchunk hnames ⟨hindex, hterm, hlength, hchecksum⟩)

theorem Mirrors.begun {incoming : Option Staging} {counted : Option Runtime.Incoming}
    {request : ChunkRequest} {chunk : Runtime.Chunk} (h : Mirrors json states incoming counted)
    (hchunk : chunk.file ∈ states) (hrequest : request.Mirrors json chunk) :
    Mirrors json states (begun incoming request)
      (if chunk.offset = 0 then some ⟨chunk.file, 0⟩ else counted) := by
  rw [Snapshot.begun, hrequest.offset]
  split
  · have hof := hrequest.of
    exact .under hchunk ⟨hof.snapshotIndex, hof.snapshotTerm, hof.length, hof.checksum⟩
      List.nil_prefix
  · exact h

/-- `stageChunk` counts what `stage` collects, and passes the same request on. -/
theorem stage_counts {incoming : Option Staging} {request : ChunkRequest}
    {process : Runtime.Process} {chunk : Runtime.Chunk} {staged : Staged}
    (h : Counted json config states) (hchunk : chunk.file ∈ states)
    (hrequest : request.Mirrors json chunk)
    (hincoming : Mirrors json states incoming process.incoming)
    (hstage : stage json (Runtime.snapshotIdentity config id) incoming request = .ok staged) :
    Mirrors json states staged.incoming (Runtime.stageChunk config id process chunk).1.incoming ∧
      (Runtime.stageChunk config id process chunk).2.1 = staged.ready.toList ∧
      (Runtime.stageChunk config id process chunk).2.2 = staged.request := by
  have hbegun := hincoming.begun hchunk hrequest
  rw [stage] at hstage
  rw [Runtime.stageChunk]
  generalize hfound : begun incoming request = found at hbegun hstage
  generalize hcounted : (if chunk.offset = 0 then some ⟨chunk.file, 0⟩ else process.incoming) =
    counted at hbegun ⊢
  cases hbegun with
  | idle =>
      cases hstage
      exact ⟨.idle, rfl, (hrequest.passed _ _).symm⟩
  | @under staging state hmem hnames hdata =>
      simp only at hstage ⊢
      have hrefuses := h.refuses_iff hmem hchunk hnames hrequest
      by_cases haccepts : staging.Refuses request
      · rw [if_pos haccepts] at hstage
        rw [if_pos (hrefuses.mp haccepts)]
        cases hstage
        exact ⟨.under hmem hnames hdata, rfl, (hrequest.passed _ _).symm⟩
      · rw [if_neg haccepts] at hstage
        rw [if_neg (fun hcounted => haccepts (hrefuses.mpr hcounted))]
        rw [hrefuses] at haccepts
        push Not at haccepts
        obtain ⟨rfl, hoffset, -⟩ := haccepts
        have hof := hrequest.of
        have hstaged : staging.data = (fileOf json chunk.file).contents.take request.offset := by
          rw [hrequest.offset, hoffset]
          exact List.prefix_iff_eq_take.mp hdata
        have hlength : (staging.data ++ request.data).length = staging.data.length + chunk.size := by
          rw [List.length_append, hrequest.size]
        cases hdone : request.done with
        | false =>
            rw [if_pos hdone] at hstage
            rw [if_pos (hrequest.done ▸ hdone)]
            cases hstage
            refine ⟨?_, rfl, by simp only [hrequest.passed, hlength]⟩
            simp only [← hlength]
            refine .under hmem ⟨hnames.index, hnames.term, hnames.length, hnames.checksum⟩ ?_
            simp only [hstaged, hof.append]
            exact List.take_prefix _ _
        | true =>
            have hwhole : staging.data ++ request.data = (fileOf json chunk.file).contents := by
              rw [hstaged, hof.last hdone]
            have hcount : staging.data.length + chunk.size = config.fileLength chunk.file := by
              rw [← hlength, hwhole, h.length _ hchunk]
            have hopens : (fileOf json chunk.file).Opens json chunk.file :=
              ⟨decode_save (h.encodable _ hchunk) (h.saved _ hchunk), rfl, rfl⟩
            rw [if_neg (by simp [hdone])] at hstage
            rw [if_neg (by simp [← hrequest.done, hdone])]
            simp only [hwhole, hcount, true_and] at hstage ⊢
            by_cases hcluster : snapshotClusterMatches chunk.file.identity
                (Runtime.snapshotIdentity config id) = true
            · have hreceived := (hnames.received hopens _ chunk.file).mpr ⟨rfl, hcluster⟩
              rw [hreceived] at hstage
              simp only at hstage
              split at hstage
              · simp at hstage
              · cases hstage
                rw [if_pos hcluster]
                exact ⟨.idle, rfl, by rw [hrequest.passed, h.length _ hchunk]⟩
            · have hreceived : Staging.received json (Runtime.snapshotIdentity config id)
                  ⟨staging.index, staging.term, staging.length, staging.checksum,
                    (fileOf json chunk.file).contents⟩ = none := by
                rw [Option.eq_none_iff_forall_ne_some]
                intro received hreceived
                exact hcluster ((hnames.received hopens _ received).mp hreceived).2
              rw [hreceived] at hstage
              cases hstage
              rw [if_neg hcluster]
              exact ⟨.idle, rfl, (hrequest.passed _ _).symm⟩

end Counting

/-! ## Results -/

/--
Whatever requests arrived before it, read from the files at any offsets and in any
order: the staged bytes are a prefix of the file they are named after, and the next
request is passed on as `Delivers` says.  Without loss the transfer of a file that
opens reaches its last chunk, whatever was staged before.
-/
theorem snapshot_transfer_exact {json : StateJSON} {identity : Identity}
    {files : Set SnapshotFile} (hdistinct : Distinct files) :
    (∀ requests incoming request staged,
      (∀ earlier ∈ requests, Sent json files earlier) → Sent json files request →
      stageAll json identity none requests = .ok incoming →
      stage json identity incoming request = .ok staged →
      Holding files incoming ∧ Delivers json identity files incoming request staged) ∧
    ∀ file state taken sender term requestID incoming, file.Opens json state →
      ∃ rounds request outcome,
        transfer json taken file identity sender term requestID rounds incoming 0 =
          some (request, outcome) ∧
        Finishes json file identity state request outcome := by
  refine ⟨?_, ?_⟩
  · intro requests incoming request staged hearlier hsent hstaged hstage
    have hholding : Holding files incoming :=
      stageAll_holding hdistinct (by simp [Holding]) hearlier hstaged
    obtain ⟨file, hmem, taken, sender, term, requestID, offset, hrequest⟩ := hsent
    exact ⟨hholding,
      stage_delivers hdistinct hholding hmem (sendSnapshot_of hrequest).1 hstage⟩
  · intro file state taken sender term requestID incoming hopens
    have hrounds : file.contents.length ≤
        0 + (file.contents.length / chunkSize + 1) * chunkSize := by
      have hdiv := Nat.div_add_mod file.contents.length chunkSize
      have hmod := Nat.mod_lt file.contents.length (show 0 < chunkSize by decide)
      rw [Nat.succ_mul, Nat.mul_comm]
      omega
    exact ⟨_, transfer_finishes hopens _ (.inl rfl) (Nat.zero_le _) hrounds⟩

def sampleFile : SnapshotFile := ⟨0, 0, header (markedPayload 70000) ++ markedPayload 70000⟩

theorem sampleFile_opens : sampleFile.Opens escapedStates (markedState 70000) := by
  have hsize : (markedPayload (69999 + 1)).length ≤ maxPayloadSize := by
    have hfixed : (markedPayload 0).length ≤ 1000 := by decide +kernel
    rw [markedPayload_length, maxPayloadSize]
    omega
  exact ⟨decode_marked hsize, rfl, rfl⟩

theorem snapshot_transfer_sample : ∃ first staged rounds request outcome,
    sendSnapshot escapedStates 0 sampleFile [108] 1 1 0 = some first ∧ first.done = false ∧
    stage escapedStates ⟨[99], [110], []⟩ none first = .ok staged ∧
    Delivers escapedStates ⟨[99], [110], []⟩ {sampleFile} none first staged ∧
    transfer escapedStates 0 sampleFile ⟨[99], [110], []⟩ [108] 1 id rounds none 0 =
      some (request, outcome) ∧
    Finishes escapedStates sampleFile ⟨[99], [110], []⟩ (markedState 70000) request outcome := by
  have hdistinct : Distinct {sampleFile} := by
    rintro file rfl other rfl - - - -
    rfl
  obtain ⟨hdelivers, hfinishes⟩ :=
    @snapshot_transfer_exact escapedStates ⟨[99], [110], []⟩ _ hdistinct
  obtain ⟨first, hsends⟩ : ∃ first,
      sendSnapshot escapedStates 0 sampleFile [108] 1 1 0 = some first :=
    ⟨_, sampleFile_opens.sends (Nat.zero_le _) 0 [108] 1 1⟩
  obtain ⟨hof, hoffset⟩ := sendSnapshot_of hsends
  have hmore : first.done = false := by
    rw [Bool.eq_false_iff, Ne, hof.done, hoffset]
    simp only [sampleFile, List.length_append, markedPayload_length 70000, chunkSize]
    omega
  have hbegins : Progressed sampleFile none 0 := .inl rfl
  obtain ⟨staged, hstage, -⟩ := hbegins.stage_more hof hoffset hmore ⟨[99], [110], []⟩
  obtain ⟨rounds, request, outcome, hends⟩ :=
    hfinishes sampleFile (markedState 70000) 0 [108] 1 id none sampleFile_opens
  exact ⟨first, staged, rounds, request, outcome, hsends, hmore, hstage,
    (hdelivers [] none first staged (by simp) ⟨_, Set.mem_singleton _, _, _, _, _, _, hsends⟩ rfl
      hstage).2, hends⟩

end QuorumKV.Snapshot
