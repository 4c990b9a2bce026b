import Mathlib.Data.List.Basic
import Mathlib.Data.List.Count

/-!
# Shared Snapshot readers

The Snapshot cache of `peerTransport` in `internal/node/peer.go`.  One open reader serves
every transfer of its position; a transfer of another position evicts it, and whoever leaves
it last closes it: the eviction, a release, or the shutdown.  Each call holds
`snapshotMu`, so an interleaving is a sequence of calls.  A `*cachedSnapshot` is its place in
the list of all of them, in the order they were allocated.
-/

namespace QuorumKV.Runtime

/-- An open reader, at the position it was opened for, and how often it has been closed. -/
structure SnapshotReader where
  index : Nat
  term : Nat
  closes : Nat := 0
  deriving DecidableEq, Repr

structure CachedSnapshot where
  index : Nat
  term : Nat
  reader : SnapshotReader
  users : Int
  evicted : Bool := false
  deriving DecidableEq, Repr

structure PeerTransport where
  allocated : List CachedSnapshot := []
  snapshot : Option Nat := none
  snapshotClosed : Bool := false
  deriving DecidableEq, Repr

inductive AcquireFailure where
  | transportClosed
  | openFailed
  deriving DecidableEq, Repr

def CachedSnapshot.closeReader (cached : CachedSnapshot) : CachedSnapshot :=
  { cached with reader := { cached.reader with closes := cached.reader.closes + 1 } }

/-- What both a replacement and the shutdown do to the cached Snapshot. -/
def CachedSnapshot.evict (cached : CachedSnapshot) : CachedSnapshot :=
  if cached.users = 0 then { cached with evicted := true }.closeReader
  else { cached with evicted := true }

def CachedSnapshot.acquire (cached : CachedSnapshot) : CachedSnapshot :=
  { cached with users := cached.users + 1 }

def CachedSnapshot.release (cached : CachedSnapshot) : CachedSnapshot :=
  if cached.users - 1 = 0 ∧ cached.evicted then
    { cached with users := cached.users - 1 }.closeReader
  else { cached with users := cached.users - 1 }

namespace PeerTransport

def cachedAt (t : PeerTransport) (index term : Nat) : Option Nat :=
  t.snapshot.filter fun pointer =>
    (t.allocated[pointer]?).any fun cached => cached.index = index ∧ cached.term = term

def evictPrevious (t : PeerTransport) : Option Nat → List CachedSnapshot
  | none => t.allocated
  | some previous => t.allocated.modify previous CachedSnapshot.evict

/-- `opens` says whether `openSnapshot` succeeds, should it be called. -/
def acquireSnapshot (t : PeerTransport) (index term : Nat) (opens : Bool) :
    PeerTransport × Except AcquireFailure Nat :=
  if t.snapshotClosed then (t, .error .transportClosed)
  else
    match t.cachedAt index term with
    | some pointer =>
        ({ t with allocated := t.allocated.modify pointer CachedSnapshot.acquire }, .ok pointer)
    | none =>
        if opens = false then (t, .error .openFailed)
        else
          let fresh : CachedSnapshot :=
            { index := index
              term := term
              reader := { index := index, term := term }
              users := 1 }
          ({ t with
              allocated := t.evictPrevious t.snapshot ++ [fresh]
              snapshot := some t.allocated.length }, .ok t.allocated.length)

def releaseSnapshot (t : PeerTransport) (pointer : Nat) : PeerTransport :=
  { t with allocated := t.allocated.modify pointer CachedSnapshot.release }

/-- `close`, without the connections. -/
def close (t : PeerTransport) : PeerTransport where
  allocated := t.evictPrevious t.snapshot
  snapshot := none
  snapshotClosed := true

end PeerTransport

/-! ## Interleavings -/

inductive ReaderCall where
  | acquire (index term : Nat) (opens : Bool)
  | release (pointer : Nat)
  | close
  deriving DecidableEq, Repr

structure Sharing where
  transport : PeerTransport := {}
  held : List Nat := []
  deriving DecidableEq, Repr

namespace Sharing

def call (s : Sharing) : ReaderCall → Option Sharing
  | .acquire index term opens =>
      match s.transport.acquireSnapshot index term opens with
      | (transport, .ok pointer) => some ⟨transport, pointer :: s.held⟩
      | (transport, .error _) => some ⟨transport, s.held⟩
  | .release pointer =>
      if pointer ∈ s.held then
        some ⟨s.transport.releaseSnapshot pointer, s.held.erase pointer⟩
      else none
  | .close => some ⟨s.transport.close, s.held⟩

def run (s : Sharing) : List ReaderCall → Option Sharing
  | [] => some s
  | c :: calls => (s.call c).bind fun next => next.run calls

/-- What a cached Snapshot is while `held` of its handles are out. -/
structure Settled (cached : CachedSnapshot) (current : Bool) (held : Nat) : Prop where
  users : cached.users = held
  position : cached.reader.index = cached.index ∧ cached.reader.term = cached.term
  evicted : cached.evicted = !current
  /-- Closed once, by the last to leave it after its eviction. -/
  closes : cached.reader.closes = if cached.evicted ∧ held = 0 then 1 else 0

structure Balanced (s : Sharing) : Prop where
  settled : ∀ pointer cached, s.transport.allocated[pointer]? = some cached →
    Settled cached (s.transport.snapshot = some pointer) (s.held.count pointer)
  current : ∀ pointer, s.transport.snapshot = some pointer →
    pointer < s.transport.allocated.length
  closed : s.transport.snapshotClosed = true → s.transport.snapshot = none
  held_lt : ∀ pointer ∈ s.held, pointer < s.transport.allocated.length

/-! ## One cached Snapshot -/

section Settled

variable {cached : CachedSnapshot} {held : Nat}

theorem Settled.acquire (h : Settled cached true held) :
    Settled cached.acquire true (held + 1) := by
  have hevicted : cached.evicted = false := h.evicted
  refine ⟨?_, h.position, h.evicted, ?_⟩
  · rw [CachedSnapshot.acquire, h.users]
    push_cast
    rfl
  · have hcloses := h.closes
    simpa [CachedSnapshot.acquire, hevicted] using hcloses

theorem Settled.evict (h : Settled cached true held) : Settled cached.evict false held := by
  have hevicted : cached.evicted = false := h.evicted
  have hcloses : cached.reader.closes = 0 := by simpa [hevicted] using h.closes
  have husers := h.users
  unfold CachedSnapshot.evict
  split
  next hzero =>
    have hheld : held = 0 := by omega
    exact ⟨h.users, h.position, rfl, by simp [CachedSnapshot.closeReader, hcloses, hheld]⟩
  next hpos =>
    have hheld : held ≠ 0 := by omega
    exact ⟨h.users, h.position, rfl, by simp [hcloses, hheld]⟩

theorem Settled.release {current : Bool} (h : Settled cached current (held + 1)) :
    Settled cached.release current held := by
  have hcloses : cached.reader.closes = 0 := by simpa using h.closes
  have husers : cached.users - 1 = held := by
    have := h.users
    omega
  unfold CachedSnapshot.release
  split
  next hlast =>
    have hheld : held = 0 := by omega
    refine ⟨husers, h.position, h.evicted, ?_⟩
    simp [CachedSnapshot.closeReader, hcloses, hlast.2, hheld]
  next hmore =>
    refine ⟨husers, h.position, h.evicted, ?_⟩
    have hopen : ¬ (cached.evicted = true ∧ held = 0) := fun ⟨hevicted, hheld⟩ =>
      hmore ⟨by omega, hevicted⟩
    simp [hcloses, hopen]

theorem Settled.reader (h : Settled cached true held) :
    cached.reader = { index := cached.index, term := cached.term, closes := 0 } := by
  have hevicted : cached.evicted = false := h.evicted
  have hcloses : cached.reader.closes = 0 := by simpa [hevicted] using h.closes
  rw [← h.position.1, ← h.position.2, ← hcloses]

end Settled

/-! ## One call -/

section Calls

variable {s : Sharing}

theorem getElem?_modify_cases {allocated : List CachedSnapshot} {pointer other : Nat}
    {change : CachedSnapshot → CachedSnapshot} {cached : CachedSnapshot}
    (h : (allocated.modify pointer change)[other]? = some cached) :
    (pointer = other ∧ ∃ before, allocated[other]? = some before ∧ cached = change before) ∨
      (pointer ≠ other ∧ allocated[other]? = some cached) := by
  rw [List.getElem?_modify, Option.map_eq_map, Option.map_eq_some_iff] at h
  obtain ⟨before, hbefore, rfl⟩ := h
  by_cases hother : pointer = other
  · exact .inl ⟨hother, before, hbefore, if_pos hother⟩
  · rw [if_neg hother]
    exact .inr ⟨hother, hbefore⟩

theorem Balanced.evictPrevious (h : s.Balanced) {pointer : Nat} {cached : CachedSnapshot}
    (hfound : (s.transport.evictPrevious s.transport.snapshot)[pointer]? = some cached) :
    Settled cached false (s.held.count pointer) := by
  cases hsnapshot : s.transport.snapshot with
  | none =>
      rw [hsnapshot] at hfound
      have hsettled := h.settled pointer cached hfound
      rwa [hsnapshot, decide_eq_false (by simp)] at hsettled
  | some previous =>
      rw [hsnapshot] at hfound
      rcases getElem?_modify_cases hfound with ⟨rfl, before, hbefore, rfl⟩ | ⟨hother, hfound⟩
      · have hsettled := h.settled previous before hbefore
        rw [hsnapshot, decide_eq_true rfl] at hsettled
        exact hsettled.evict
      · have hsettled := h.settled pointer cached hfound
        rwa [hsnapshot, decide_eq_false fun heq => hother (Option.some.inj heq)] at hsettled

theorem length_evictPrevious (t : PeerTransport) (previous : Option Nat) :
    (t.evictPrevious previous).length = t.allocated.length := by
  cases previous with
  | none => rfl
  | some previous => exact List.length_modify _ _ _

theorem cachedAt_some {t : PeerTransport} {index term pointer : Nat}
    (h : t.cachedAt index term = some pointer) :
    t.snapshot = some pointer ∧ ∃ cached, t.allocated[pointer]? = some cached ∧
      cached.index = index ∧ cached.term = term := by
  obtain ⟨hsnapshot, hany⟩ := Option.filter_eq_some_iff.mp h
  cases hcached : t.allocated[pointer]? with
  | none => simp [hcached] at hany
  | some cached =>
      rw [hcached, Option.any_some, decide_eq_true_iff] at hany
      exact ⟨hsnapshot, cached, rfl, hany⟩

/-- The handle an acquirer gets is of an open reader at the position asked for. -/
theorem Balanced.acquireSnapshot (h : s.Balanced) (index term : Nat) (opens : Bool)
    {transport : PeerTransport} {pointer : Nat}
    (hacquired : s.transport.acquireSnapshot index term opens = (transport, .ok pointer)) :
    Balanced ⟨transport, pointer :: s.held⟩ ∧
      ∃ cached, transport.allocated[pointer]? = some cached ∧
        cached.reader = { index := index, term := term, closes := 0 } := by
  unfold PeerTransport.acquireSnapshot at hacquired
  split at hacquired
  · simp at hacquired
  next hopen =>
    split at hacquired
    next found hfound =>
      obtain ⟨rfl, rfl⟩ : _ ∧ found = pointer := by simpa using hacquired
      obtain ⟨hsnapshot, cached, hcached, hposition⟩ := cachedAt_some hfound
      have hsettled := h.settled found cached hcached
      rw [decide_eq_true hsnapshot] at hsettled
      have hlt := h.current found hsnapshot
      refine ⟨⟨fun other after hafter => ?_, fun other hother => ?_, h.closed, ?_⟩, ?_⟩
      · rcases getElem?_modify_cases hafter with ⟨rfl, before, hbefore, rfl⟩ | ⟨hother, hafter⟩
        · rw [hcached, Option.some.injEq] at hbefore
          subst hbefore
          rw [List.count_cons_self, decide_eq_true hsnapshot]
          exact hsettled.acquire
        · rw [List.count_cons_of_ne hother]
          exact h.settled other after hafter
      · rw [List.length_modify]
        exact h.current other hother
      · rintro other (_ | ⟨_, hother⟩)
        · rwa [List.length_modify]
        · rw [List.length_modify]
          exact h.held_lt other hother
      · refine ⟨cached.acquire, by simp [hcached], ?_⟩
        rw [← hposition.1, ← hposition.2]
        exact hsettled.reader
    next hmiss =>
      split at hacquired
      · simp at hacquired
      next =>
        obtain ⟨rfl, rfl⟩ : _ ∧ s.transport.allocated.length = pointer := by
          simpa using hacquired
        have hlength := length_evictPrevious s.transport s.transport.snapshot
        have hnew : s.held.count s.transport.allocated.length = 0 :=
          List.count_eq_zero.mpr fun hmem => Nat.lt_irrefl _ (h.held_lt _ hmem)
        refine ⟨⟨fun other after hafter => ?_, ?_, fun hclosed => absurd hclosed hopen, ?_⟩, ?_⟩
        · rcases Nat.lt_or_ge other s.transport.allocated.length with hlt | hge
          · have hne : s.transport.allocated.length ≠ other := (Nat.ne_of_lt hlt).symm
            rw [List.getElem?_append_left (hlength ▸ hlt)] at hafter
            rw [List.count_cons_of_ne hne, decide_eq_false fun heq => hne (Option.some.inj heq)]
            exact h.evictPrevious hafter
          · rw [List.getElem?_append_right (hlength ▸ hge), hlength,
              List.getElem?_singleton] at hafter
            split at hafter
            next hzero =>
              obtain rfl : s.transport.allocated.length = other := by omega
              cases hafter
              rw [List.count_cons_self, hnew, decide_eq_true rfl]
              exact ⟨rfl, ⟨rfl, rfl⟩, rfl, rfl⟩
            next => simp at hafter
        · rintro other ⟨⟩
          simp [hlength]
        · rintro other (_ | ⟨_, hother⟩)
          · simp [hlength]
          · have := h.held_lt other hother
            simp only [List.length_append, hlength]
            omega
        · exact ⟨_, by rw [List.getElem?_append_right (by omega), hlength, Nat.sub_self]; rfl, rfl⟩

theorem Balanced.releaseSnapshot (h : s.Balanced) {pointer : Nat} (hheld : pointer ∈ s.held) :
    Balanced ⟨s.transport.releaseSnapshot pointer, s.held.erase pointer⟩ := by
  refine ⟨fun other after hafter => ?_, fun other hother => ?_, h.closed, fun other hother => ?_⟩
  · rcases getElem?_modify_cases hafter with ⟨rfl, before, hbefore, rfl⟩ | ⟨hother, hafter⟩
    · have hsettled := h.settled pointer before hbefore
      obtain ⟨count, hcount⟩ := Nat.exists_eq_succ_of_ne_zero
        (Nat.ne_of_gt (List.count_pos_iff.mpr hheld))
      rw [hcount] at hsettled
      rw [List.count_erase_self, hcount]
      exact hsettled.release
    · rw [List.count_erase_of_ne (Ne.symm hother)]
      exact h.settled other after hafter
  · rw [PeerTransport.releaseSnapshot, List.length_modify]
    exact h.current other hother
  · rw [PeerTransport.releaseSnapshot, List.length_modify]
    exact h.held_lt other (List.mem_of_mem_erase hother)

theorem Balanced.close (h : s.Balanced) : Balanced ⟨s.transport.close, s.held⟩ := by
  refine ⟨fun other after hafter => ?_, fun other hother => ?_, fun _ => rfl,
    fun other hother => ?_⟩
  · exact h.evictPrevious hafter
  · simp [PeerTransport.close] at hother
  · rw [PeerTransport.close, length_evictPrevious]
    exact h.held_lt other hother

theorem acquireSnapshot_error {t transport : PeerTransport} {index term : Nat} {opens : Bool}
    {failure : AcquireFailure}
    (h : t.acquireSnapshot index term opens = (transport, .error failure)) : transport = t := by
  unfold PeerTransport.acquireSnapshot at h
  split at h
  · exact (congrArg Prod.fst h).symm
  · split at h
    · simp at h
    · split at h
      · exact (congrArg Prod.fst h).symm
      · simp at h

theorem Balanced.call (h : s.Balanced) {c : ReaderCall} {next : Sharing}
    (hcall : s.call c = some next) : next.Balanced := by
  cases c with
  | acquire index term opens =>
      simp only [Sharing.call] at hcall
      split at hcall
      next transport pointer hacquired =>
        cases hcall
        exact (h.acquireSnapshot index term opens hacquired).1
      next transport failure hfailed =>
        cases hcall
        rw [acquireSnapshot_error hfailed]
        exact h
  | release pointer =>
      simp only [Sharing.call] at hcall
      split at hcall
      next hheld =>
        cases hcall
        exact h.releaseSnapshot hheld
      next => simp at hcall
  | close =>
      cases hcall
      exact h.close

end Calls

/-! ## Every interleaving -/

theorem balanced_new : Balanced {} :=
  ⟨fun _ _ h => by simp at h, fun _ h => by simp at h, fun _ => rfl, fun _ h => by simp at h⟩

theorem Balanced.run {s : Sharing} (h : s.Balanced) {calls : List ReaderCall} {final : Sharing}
    (hrun : s.run calls = some final) : final.Balanced := by
  induction calls generalizing s with
  | nil =>
      cases hrun
      exact h
  | cons c calls ih =>
      obtain ⟨next, hcall, hrest⟩ := Option.bind_eq_some_iff.mp hrun
      exact ih (h.call hcall) hrest

/--
After any interleaving of acquisitions, releases of handles held and shutdowns, no reader in
use has been closed, none has been closed twice, an acquirer gets an open reader at the
position it asks for, and after the shutdown and the last release all have been closed.
-/
theorem readers_closed_once (calls : List ReaderCall) (s : Sharing)
    (h : Sharing.run {} calls = some s) :
    (∀ pointer ∈ s.held, ∃ cached, s.transport.allocated[pointer]? = some cached ∧
      cached.reader.closes = 0) ∧
    (∀ cached ∈ s.transport.allocated, cached.reader.closes ≤ 1) ∧
    (∀ index term opens transport pointer,
      s.transport.acquireSnapshot index term opens = (transport, .ok pointer) →
        ∃ cached, transport.allocated[pointer]? = some cached ∧
          cached.reader = { index := index, term := term, closes := 0 }) ∧
    (s.transport.snapshotClosed = true → s.held = [] →
      ∀ cached ∈ s.transport.allocated, cached.reader.closes = 1) := by
  have hbalanced := balanced_new.run h
  refine ⟨fun pointer hheld => ?_, fun cached hmem => ?_,
    fun index term opens transport pointer hacquired =>
      (hbalanced.acquireSnapshot index term opens hacquired).2,
    fun hclosed hnone cached hmem => ?_⟩
  · have hlt := hbalanced.held_lt pointer hheld
    have hfound := List.getElem?_eq_getElem hlt
    refine ⟨_, hfound, ?_⟩
    have hused : s.held.count pointer ≠ 0 := Nat.ne_of_gt (List.count_pos_iff.mpr hheld)
    rw [(hbalanced.settled pointer _ hfound).closes, if_neg fun hlast => hused hlast.2]
  · obtain ⟨pointer, hfound⟩ := List.mem_iff_getElem?.mp hmem
    rw [(hbalanced.settled pointer cached hfound).closes]
    split <;> omega
  · obtain ⟨pointer, hfound⟩ := List.mem_iff_getElem?.mp hmem
    have hsettled := hbalanced.settled pointer cached hfound
    rw [hbalanced.closed hclosed, hnone] at hsettled
    have hevicted : cached.evicted = true := hsettled.evicted
    rw [hsettled.closes, if_pos ⟨hevicted, List.count_nil⟩]

def sharedCalls : List ReaderCall :=
  [.acquire 1 1 true, .acquire 1 1 true, .acquire 2 1 true, .release 0, .close, .release 0,
    .release 1]

def sharedEnd : Sharing := (Sharing.run {} sharedCalls).getD {}

theorem readers_closed_once_sample :
    sharedEnd.transport.allocated.length = 2 ∧
      ∀ cached ∈ sharedEnd.transport.allocated, cached.reader.closes = 1 := by
  have hrun : Sharing.run {} sharedCalls = some sharedEnd := by decide +kernel
  obtain ⟨-, -, -, hall⟩ := readers_closed_once sharedCalls sharedEnd hrun
  exact ⟨by decide +kernel, hall (by decide +kernel) (by decide +kernel)⟩

end Sharing

end QuorumKV.Runtime
