import Mathlib.Data.Finset.Basic
import QuorumKV.Foundation.Terms

/-!
# Consensus on a log

An abstract account of leader-based replication, over any set of nodes with
intersecting quorums and any entries that carry a term.  The state keeps, next
to the durable term and log of every node, a history: who voted for whom and
with which log, who led each term with which log, how much of a leader's log
each node acknowledged, and how much of it the leader committed.

The steps say when each of these may change.  Logs change in three ways only:
a leader appends to its own, a follower moves to a prefix of its leader's, and a
new leader starts with the log it campaigned with.
-/

namespace QuorumKV.Foundation

variable {N E : Type*}

structure Consensus (N E : Type*) where
  term : N → Nat
  log : N → List E
  vote : N → Nat → Option N
  ballot : N → Nat → List E
  cand : N → Nat → List E
  lead : Nat → Option N
  voters : Nat → Finset N
  llog : Nat → List E
  ack : N → Nat → Nat
  lcommit : Nat → Nat
  chosen : List E

namespace Consensus

def initial : Consensus N E where
  term _ := 0
  log _ := []
  vote _ _ := none
  ballot _ _ := []
  cand _ _ := []
  lead _ := none
  voters _ := ∅
  llog _ := []
  ack _ _ := 0
  lcommit _ := 0
  chosen := []

def put [DecidableEq N] {α : Type*} (values : N → Nat → α) (f : N) (T : Nat) (value : α) :
    N → Nat → α :=
  fun g U => if g = f ∧ U = T then value else values g U

section Steps

variable [DecidableEq N] (τ : E → Nat) (quorum : Finset N → Prop)

def raised (σ : Consensus N E) (f : N) (T : Nat) : Consensus N E :=
  { σ with term := Function.update σ.term f T }

def campaigned (σ : Consensus N E) (c : N) (T : Nat) : Consensus N E :=
  { σ with
    term := Function.update σ.term c T
    vote := put σ.vote c T (some c)
    ballot := put σ.ballot c T (σ.log c)
    cand := put σ.cand c T (σ.log c) }

def granted (σ : Consensus N E) (f c : N) (T : Nat) : Consensus N E :=
  { σ with
    term := Function.update σ.term f T
    vote := put σ.vote f T (some c)
    ballot := put σ.ballot f T (σ.log f) }

def elected (σ : Consensus N E) (c : N) (T : Nat) (Q : Finset N) : Consensus N E :=
  { σ with
    lead := Function.update σ.lead T (some c)
    voters := Function.update σ.voters T Q
    llog := Function.update σ.llog T (σ.cand c T) }

def appended (σ : Consensus N E) (c : N) (T : Nat) (e : E) : Consensus N E :=
  { σ with
    llog := Function.update σ.llog T (σ.llog T ++ [e])
    log := Function.update σ.log c (σ.llog T ++ [e]) }

def accepted (σ : Consensus N E) (f : N) (count : Nat) : Consensus N E :=
  { σ with log := Function.update σ.log f ((σ.llog (σ.term f)).take count) }

def acknowledged (σ : Consensus N E) (f : N) (count : Nat) : Consensus N E :=
  { σ with ack := put σ.ack f (σ.term f) (max (σ.ack f (σ.term f)) count) }

def committed (σ : Consensus N E) (T i : Nat) : Consensus N E :=
  { σ with
    lcommit := Function.update σ.lcommit T (max (σ.lcommit T) i)
    chosen := if σ.chosen.length < i then (σ.llog T).take i else σ.chosen }

/--
The follower `f` may move to the first `count` entries of its leader's log on
the way to the first `goal` of them: it does not hold the goal yet, and keeps
whatever it already shares with it.
-/
structure MayAccept (σ : Consensus N E) (f : N) (count goal : Nat) : Prop where
  led : σ.lead (σ.term f) ≠ none
  goal_le : goal ≤ (σ.llog (σ.term f)).length
  count_le : count ≤ goal
  missing : ¬ (σ.llog (σ.term f)).take goal <+: σ.log f
  keeps : ∀ shared ≤ goal, (σ.llog (σ.term f)).take shared <+: σ.log f → shared ≤ count

inductive Step : Consensus N E → Consensus N E → Prop where
  | raise (σ) (f : N) (T : Nat) (newer : σ.term f ≤ T) : Step σ (σ.raised f T)
  | campaign (σ) (c : N) (T : Nat) (newer : σ.term c < T) : Step σ (σ.campaigned c T)
  | grant (σ) (f c : N) (T : Nat) (newer : σ.term f ≤ T) (free : σ.vote f T = none)
      (campaigns : σ.vote c T = some c)
      (upToDate : UpToDate τ (σ.cand c T) (σ.log f)) : Step σ (σ.granted f c T)
  | elect (σ) (c : N) (T : Nat) (Q : Finset N) (enough : quorum Q)
      (votes : ∀ f ∈ Q, σ.vote f T = some c) (campaigns : σ.vote c T = some c)
      (fresh : σ.lead T ≠ some c) : Step σ (σ.elected c T Q)
  | append (σ) (c : N) (T : Nat) (e : E) (leads : σ.lead T = some c) (current : σ.term c = T)
      (holds : σ.log c = σ.llog T) (stamped : τ e = T) : Step σ (σ.appended c T e)
  | accept (σ) (f : N) (count goal : Nat) (may : σ.MayAccept f count goal) :
      Step σ (σ.accepted f count)
  | acknowledge (σ) (f : N) (count : Nat) (led : σ.lead (σ.term f) ≠ none)
      (inside : count ≤ (σ.llog (σ.term f)).length)
      (holds : (σ.llog (σ.term f)).take count <+: σ.log f) : Step σ (σ.acknowledged f count)
  | commit (σ) (T i : Nat) (Q : Finset N) (enough : quorum Q) (positive : 0 < i)
      (inside : i ≤ (σ.llog T).length) (current : termAt τ (σ.llog T) i = T)
      (acks : ∀ f ∈ Q, i ≤ σ.ack f T) : Step σ (σ.committed T i)

def Retains (σ : Consensus N E) : Prop :=
  ∀ f T i, i ≤ σ.ack f T →
    (∀ U, T < U → U ≤ σ.term f → σ.lead U ≠ none → (σ.llog T).take i <+: σ.llog U) →
    (σ.llog T).take i <+: σ.log f

/-- And a voter had it when it helped elect a leader. -/
def Voted (σ : Consensus N E) : Prop :=
  ∀ f V c, σ.vote f V = some c → (σ.lead V = none ∨ f ∈ σ.voters V) →
    ∀ T i, T < V → i ≤ σ.ack f T →
      (∀ U, T < U → U < V → σ.lead U ≠ none → (σ.llog T).take i <+: σ.llog U) →
      (σ.llog T).take i <+: σ.ballot f V

structure Inv (σ : Consensus N E) : Prop where
  vote_le : ∀ f T c, σ.vote f T = some c → 0 < T ∧ T ≤ σ.term f
  vote_cand : ∀ f T c, σ.vote f T = some c →
    σ.vote c T = some c ∧ UpToDate τ (σ.cand c T) (σ.ballot f T)
  cand_sound : ∀ c T, σ.vote c T = some c →
    Sound τ σ.llog (σ.cand c T) ∧ ∀ e ∈ σ.cand c T, τ e < T
  ballot_sorted : ∀ f T c, σ.vote f T = some c → Sorted τ (σ.ballot f T)
  lead_votes : ∀ T c, σ.lead T = some c →
    quorum (σ.voters T) ∧ (∀ f ∈ σ.voters T, σ.vote f T = some c) ∧ σ.vote c T = some c
  lead_none : ∀ T, σ.lead T = none → σ.llog T = [] ∧ ∀ f, σ.ack f T = 0
  lead_log : ∀ T c, σ.lead T = some c →
    σ.cand c T <+: σ.llog T ∧ (∀ e ∈ σ.llog T, τ e = T ∨ e ∈ σ.cand c T)
  log_sound : ∀ f, Sound τ σ.llog (σ.log f) ∧ ∀ e ∈ σ.log f, τ e ≤ σ.term f
  llog_sound : ∀ T, Sound τ σ.llog (σ.llog T) ∧ ∀ e ∈ σ.llog T, τ e ≤ T
  ack_le : ∀ f T, σ.ack f T ≤ (σ.llog T).length ∧ (0 < σ.ack f T → T ≤ σ.term f)
  retains : σ.Retains
  voted : σ.Voted
  commit_acks : ∀ T, 0 < σ.lcommit T → σ.lcommit T ≤ (σ.llog T).length ∧
    termAt τ (σ.llog T) (σ.lcommit T) = T ∧
      ∃ Q, quorum Q ∧ ∀ f ∈ Q, σ.lcommit T ≤ σ.ack f T

end Steps

/-! ## Every step keeps the invariant -/

section Preservation

variable [DecidableEq N] {τ : E → Nat} {quorum : Finset N → Prop} {σ : Consensus N E}

theorem put_same {α : Type*} (values : N → Nat → α) (f : N) (T : Nat) (value : α) :
    put values f T value f T = value := by
  simp [put]

theorem put_other {α : Type*} {values : N → Nat → α} {f g : N} {T U : Nat} {value : α}
    (h : ¬ (g = f ∧ U = T)) : put values f T value g U = values g U := by
  simp only [put, if_neg h]

theorem le_update {f : N} {T : Nat} (h : σ.term f ≤ T) (g : N) :
    σ.term g ≤ Function.update σ.term f T g := by
  by_cases hg : g = f
  · subst hg
    simpa using h
  · simp [hg]

theorem Inv.raised (h : σ.Inv τ quorum) {f : N} {T : Nat} (newer : σ.term f ≤ T) :
    (σ.raised f T).Inv τ quorum :=
  { h with
    vote_le := fun g U c hvote =>
      ⟨(h.vote_le g U c hvote).1, (h.vote_le g U c hvote).2.trans (le_update newer g)⟩
    log_sound := fun g =>
      ⟨(h.log_sound g).1, fun e he => ((h.log_sound g).2 e he).trans (le_update newer g)⟩
    ack_le := fun g U =>
      ⟨(h.ack_le g U).1, fun hpos => ((h.ack_le g U).2 hpos).trans (le_update newer g)⟩
    retains := fun g U i hi hlater =>
      h.retains g U i hi fun V hV hle => hlater V hV (hle.trans (le_update newer g)) }

theorem Inv.granted (h : σ.Inv τ quorum) {f c : N} {T : Nat} (newer : σ.term f ≤ T)
    (positive : 0 < T) (free : σ.vote f T = none) (campaigns : f = c ∨ σ.vote c T = some c)
    (sound : Sound τ σ.llog (σ.cand c T) ∧ ∀ e ∈ σ.cand c T, τ e < T)
    (upToDate : UpToDate τ (σ.cand c T) (σ.log f)) : (σ.granted f c T).Inv τ quorum := by
  have hkeeps : ∀ g U d, σ.vote g U = some d → put σ.vote f T (some c) g U = some d := by
    intro g U d hvote
    rw [put_other, hvote]
    rintro ⟨rfl, rfl⟩
    simp [free] at hvote
  have hself : put σ.vote f T (some c) c T = some c := by
    rcases campaigns with rfl | hvote
    · exact put_same _ _ _ _
    · exact hkeeps c T c hvote
  refine { h with
    vote_le := ?_
    vote_cand := ?_
    cand_sound := ?_
    ballot_sorted := ?_
    lead_votes := ?_
    log_sound := (h.raised newer).log_sound
    ack_le := (h.raised newer).ack_le
    retains := (h.raised newer).retains
    voted := ?_ }
  · intro g U d hvote
    by_cases hsame : g = f ∧ U = T
    · obtain ⟨rfl, rfl⟩ := hsame
      simpa [Consensus.granted] using positive
    · simp only [Consensus.granted, put_other hsame] at hvote
      exact (h.raised newer).vote_le g U d hvote
  · intro g U d hvote
    by_cases hsame : g = f ∧ U = T
    · obtain ⟨rfl, rfl⟩ := hsame
      simp only [Consensus.granted, put_same, Option.some.injEq] at hvote ⊢
      subst hvote
      exact ⟨hself, upToDate⟩
    · simp only [Consensus.granted, put_other hsame] at hvote ⊢
      obtain ⟨hcampaigns, hupToDate⟩ := h.vote_cand g U d hvote
      exact ⟨hkeeps d U d hcampaigns, hupToDate⟩
  · intro d U hvote
    by_cases hsame : d = f ∧ U = T
    · obtain ⟨rfl, rfl⟩ := hsame
      simp only [Consensus.granted, put_same, Option.some.injEq] at hvote
      subst hvote
      exact sound
    · simp only [Consensus.granted, put_other hsame] at hvote
      exact h.cand_sound d U hvote
  · intro g U d hvote
    by_cases hsame : g = f ∧ U = T
    · obtain ⟨rfl, rfl⟩ := hsame
      simp only [Consensus.granted, put_same]
      exact (h.log_sound g).1.sorted
    · simp only [Consensus.granted, put_other hsame] at hvote ⊢
      exact h.ballot_sorted g U d hvote
  · intro U d hlead
    obtain ⟨henough, hvotes, hcampaigns⟩ := h.lead_votes U d hlead
    exact ⟨henough, fun g hg => hkeeps g U d (hvotes g hg), hkeeps d U d hcampaigns⟩
  · intro g V d hvote hcounted U i hU hi hlater
    by_cases hsame : g = f ∧ V = T
    · obtain ⟨rfl, rfl⟩ := hsame
      simp only [Consensus.granted, put_same]
      -- A vote counts only while its term has no leader, so the voter still has its log.
      have hnone : σ.lead V = none := by
        rcases hcounted with hnone | hmem
        · exact hnone
        · cases hlead : σ.lead V with
          | none => rfl
          | some d =>
              have := (h.lead_votes V d hlead).2.1 g hmem
              simp [free] at this
      refine h.retains g U i hi fun W hW hle hled => hlater W hW ?_ hled
      rcases Nat.lt_or_eq_of_le (hle.trans newer) with hlt | rfl
      · exact hlt
      · exact absurd hnone hled
    · simp only [Consensus.granted, put_other hsame] at hvote ⊢
      exact h.voted g V d hvote hcounted U i hU hi hlater

theorem Inv.campaigned (h : σ.Inv τ quorum) {c : N} {T : Nat} (newer : σ.term c < T) :
    (σ.campaigned c T).Inv τ quorum := by
  have hfree : σ.vote c T = none := by
    cases hvote : σ.vote c T with
    | none => rfl
    | some d => exact absurd (h.vote_le c T d hvote).2 (Nat.not_le.mpr newer)
  have hcand : ∀ d U, σ.vote d U = some d → put σ.cand c T (σ.log c) d U = σ.cand d U := by
    intro d U hvote
    apply put_other
    rintro ⟨rfl, rfl⟩
    simp [hfree] at hvote
  have hinv : ({ σ with cand := put σ.cand c T (σ.log c) } : Consensus N E).Inv τ quorum :=
    { h with
      vote_cand := fun g U d hvote => by
        obtain ⟨hcampaigns, hupToDate⟩ := h.vote_cand g U d hvote
        exact ⟨hcampaigns, by simpa only [hcand d U hcampaigns] using hupToDate⟩
      cand_sound := fun d U hvote => by
        simpa only [hcand d U hvote] using h.cand_sound d U hvote
      lead_log := fun U d hlead => by
        simpa only [hcand d U (h.lead_votes U d hlead).2.2] using h.lead_log U d hlead }
  refine hinv.granted newer.le (Nat.zero_lt_of_lt newer) hfree (.inl rfl) ?_ ?_
  · simp only [put_same]
    exact ⟨(h.log_sound c).1, fun e he => ((h.log_sound c).2 e he).trans_lt newer⟩
  · simp only [put_same]
    exact UpToDate.refl _

omit [DecidableEq N] in
/-- A term has one leader: two elections share a voter. -/
theorem Inv.lead_none_of_elect (h : σ.Inv τ quorum)
    (inter : ∀ Q Q', quorum Q → quorum Q' → ∃ f ∈ Q, f ∈ Q') {c : N} {T : Nat} {Q : Finset N}
    (enough : quorum Q) (votes : ∀ f ∈ Q, σ.vote f T = some c) (fresh : σ.lead T ≠ some c) :
    σ.lead T = none := by
  cases hlead : σ.lead T with
  | none => rfl
  | some d =>
      obtain ⟨henough, hvotes, -⟩ := h.lead_votes T d hlead
      obtain ⟨f, hf, hf'⟩ := inter _ _ enough henough
      have hsame := (votes f hf).symm.trans (hvotes f hf')
      exact absurd (hlead.trans hsame.symm) fresh

omit [DecidableEq N] in
theorem Inv.elected (h : σ.Inv τ quorum) {c : N} {T : Nat} {Q : Finset N}
    (enough : quorum Q) (votes : ∀ f ∈ Q, σ.vote f T = some c)
    (campaigns : σ.vote c T = some c) (hnone : σ.lead T = none) :
    (σ.elected c T Q).Inv τ quorum := by
  obtain ⟨hempty, hacks⟩ := h.lead_none T hnone
  have hgrow : ∀ U, σ.llog U <+: Function.update σ.llog T (σ.cand c T) U := by
    intro U
    by_cases hU : U = T
    · subst hU
      simp [hempty]
    · simp [hU]
  have hlater : ∀ U V : Nat, ∀ i, U ≠ T →
      (Function.update σ.lead T (some c) V ≠ none →
        (Function.update σ.llog T (σ.cand c T) U).take i <+:
          Function.update σ.llog T (σ.cand c T) V) →
      σ.lead V ≠ none → (σ.llog U).take i <+: σ.llog V := by
    intro U V i hU hV hled
    have hVT : V ≠ T := fun h => hled (h ▸ hnone)
    simpa [hU, hVT, hled] using hV
  refine { h with
    cand_sound := fun d U hvote =>
      ⟨(h.cand_sound d U hvote).1.mono hgrow, (h.cand_sound d U hvote).2⟩
    log_sound := fun f => ⟨(h.log_sound f).1.mono hgrow, (h.log_sound f).2⟩
    lead_votes := ?_
    lead_none := ?_
    lead_log := ?_
    llog_sound := ?_
    ack_le := ?_
    retains := ?_
    voted := ?_
    commit_acks := ?_ }
  · intro U d hlead
    by_cases hU : U = T
    · subst hU
      simp only [Consensus.elected, Function.update_self, Option.some.injEq] at hlead ⊢
      subst hlead
      exact ⟨enough, votes, campaigns⟩
    · simp only [Consensus.elected, Function.update_of_ne hU] at hlead ⊢
      exact h.lead_votes U d hlead
  · intro U hlead
    by_cases hU : U = T
    · subst hU
      simp [Consensus.elected] at hlead
    · simp only [Consensus.elected, Function.update_of_ne hU] at hlead ⊢
      exact h.lead_none U hlead
  · intro U d hlead
    by_cases hU : U = T
    · subst hU
      simp only [Consensus.elected, Function.update_self, Option.some.injEq] at hlead ⊢
      subst hlead
      exact ⟨List.prefix_rfl, fun e he => .inr he⟩
    · simp only [Consensus.elected, Function.update_of_ne hU] at hlead ⊢
      exact h.lead_log U d hlead
  · intro U
    by_cases hU : U = T
    · subst hU
      simp only [Consensus.elected, Function.update_self]
      obtain ⟨hsound, hlt⟩ := h.cand_sound c U campaigns
      exact ⟨hsound.mono hgrow, fun e he => (hlt e he).le⟩
    · simp only [Consensus.elected, Function.update_of_ne hU]
      exact ⟨(h.llog_sound U).1.mono hgrow, (h.llog_sound U).2⟩
  · intro f U
    exact ⟨(h.ack_le f U).1.trans (hgrow U).length_le, (h.ack_le f U).2⟩
  · intro f U i hi hkept
    by_cases hU : U = T
    · subst hU
      have hi0 : i = 0 := Nat.le_zero.mp ((hacks f) ▸ hi)
      simp [hi0]
    · have := h.retains f U i hi fun V hV hle hled => hlater U V i hU (hkept V hV hle) hled
      simpa only [Consensus.elected, Function.update_of_ne hU] using this
  · intro f V d hvote hcounted U i hU hi hkept
    have hUT : U ≠ T ∨ i = 0 := by
      by_cases hUT : U = T
      · subst hUT
        exact .inr (Nat.le_zero.mp ((hacks f) ▸ hi))
      · exact .inl hUT
    rcases hUT with hUT | rfl
    · have hcounted' : σ.lead V = none ∨ f ∈ σ.voters V := by
        by_cases hV : V = T
        · exact .inl (hV ▸ hnone)
        · simpa [Consensus.elected, hV] using hcounted
      have := h.voted f V d hvote hcounted' U i hU hi
        fun W hW hlt hled => hlater U W i hUT (hkept W hW hlt) hled
      simpa only [Consensus.elected, Function.update_of_ne hUT] using this
    · simp
  · intro U hpos
    obtain ⟨hle, hterm, hacked⟩ := h.commit_acks U hpos
    have hU : U ≠ T := by
      rintro rfl
      rw [hempty] at hle
      have hzero : σ.lcommit U = 0 := by simpa using hle
      simp [Consensus.elected, hzero] at hpos
    simp only [Consensus.elected, Function.update_of_ne hU]
    exact ⟨hle, hterm, hacked⟩

theorem Inv.appended (h : σ.Inv τ quorum) {c : N} {T : Nat} {e : E}
    (leads : σ.lead T = some c) (current : σ.term c = T) (holds : σ.log c = σ.llog T)
    (stamped : τ e = T) : (σ.appended c T e).Inv τ quorum := by
  have hpositive : 0 < T := (h.vote_le c T c (h.lead_votes T c leads).2.2).1
  have hgrow : ∀ U, σ.llog U <+: Function.update σ.llog T (σ.llog T ++ [e]) U := by
    intro U
    by_cases hU : U = T
    · subst hU
      simp
    · simp [hU]
  have hnew : Sound τ (Function.update σ.llog T (σ.llog T ++ [e])) (σ.llog T ++ [e]) ∧
      ∀ x ∈ σ.llog T ++ [e], τ x ≤ T := by
    constructor
    · refine ((h.llog_sound T).1.mono hgrow).append (stamped ▸ hpositive) ?_ ?_
      · exact fun x hx => stamped ▸ (h.llog_sound T).2 x hx
      · simp [stamped]
    · intro x hx
      rcases List.mem_append.mp hx with hx | hx
      · exact (h.llog_sound T).2 x hx
      · rw [List.mem_singleton.mp hx, stamped]
  have htake : ∀ f U i, i ≤ σ.ack f U →
      (Function.update σ.llog T (σ.llog T ++ [e]) U).take i = (σ.llog U).take i :=
    fun f U i hi => take_eq_take (hgrow U) (hi.trans (h.ack_le f U).1)
  -- Entries of an earlier leader cannot reach past the new entry.
  have hback : ∀ U V i, U < V →
      (σ.llog U).take i <+: Function.update σ.llog T (σ.llog T ++ [e]) V →
      (σ.llog U).take i <+: σ.llog V := by
    intro U V i hUV hpre
    by_cases hV : V = T
    · subst hV
      rw [Function.update_self] at hpre
      refine prefix_of_append_term (τ := τ) hpre fun x hx => ?_
      have := (h.llog_sound U).2 x (List.mem_of_mem_take hx)
      omega
    · rwa [Function.update_of_ne hV] at hpre
  refine { h with
    cand_sound := fun d U hvote =>
      ⟨(h.cand_sound d U hvote).1.mono hgrow, (h.cand_sound d U hvote).2⟩
    lead_none := ?_
    lead_log := ?_
    log_sound := ?_
    llog_sound := ?_
    ack_le := fun f U =>
      ⟨(h.ack_le f U).1.trans (hgrow U).length_le, (h.ack_le f U).2⟩
    retains := ?_
    voted := ?_
    commit_acks := ?_ }
  · intro U hlead
    have hU : U ≠ T := by
      rintro rfl
      exact absurd (leads.symm.trans hlead) (by simp)
    simp only [Consensus.appended, Function.update_of_ne hU]
    exact h.lead_none U hlead
  · intro U d hlead
    obtain ⟨hpre, hentries⟩ := h.lead_log U d hlead
    refine ⟨hpre.trans (hgrow U), ?_⟩
    by_cases hU : U = T
    · subst hU
      simp only [Consensus.appended, Function.update_self]
      intro x hx
      rcases List.mem_append.mp hx with hx | hx
      · exact hentries x hx
      · rw [List.mem_singleton.mp hx]
        exact .inl stamped
    · simpa only [Consensus.appended, Function.update_of_ne hU] using hentries
  · intro f
    by_cases hf : f = c
    · subst hf
      simp only [Consensus.appended, Function.update_self, current]
      exact hnew
    · simp only [Consensus.appended, Function.update_of_ne hf]
      exact ⟨(h.log_sound f).1.mono hgrow, (h.log_sound f).2⟩
  · intro U
    by_cases hU : U = T
    · subst hU
      simp only [Consensus.appended, Function.update_self]
      exact hnew
    · simp only [Consensus.appended, Function.update_of_ne hU]
      exact ⟨(h.llog_sound U).1.mono hgrow, (h.llog_sound U).2⟩
  · intro f U i hi hkept
    simp only [Consensus.appended, htake f U i hi] at hkept ⊢
    have hold := h.retains f U i hi fun V hV hle hled => hback U V i hV (hkept V hV hle hled)
    by_cases hf : f = c
    · subst hf
      rw [holds] at hold
      simpa using hold.trans (List.prefix_append _ _)
    · simpa [hf] using hold
  · intro f V d hvote hcounted U i hU hi hkept
    simp only [Consensus.appended, htake f U i hi] at hkept ⊢
    exact h.voted f V d hvote hcounted U i hU hi
      fun W hW hlt hled => hback U W i hW (hkept W hW hlt hled)
  · intro U hpos
    obtain ⟨hle, hterm, hacked⟩ := h.commit_acks U hpos
    refine ⟨hle.trans (hgrow U).length_le, ?_, hacked⟩
    have := termAt_front (τ := τ) (hgrow U) hle
    exact this.trans hterm

omit [DecidableEq N] in
/-- What a follower shares with its leader survives when it accepts more. -/
theorem MayAccept.shared_le {f : N} {count goal i : Nat} (h : σ.MayAccept f count goal)
    (hshared : (σ.llog (σ.term f)).take i <+: σ.log f) : i ≤ count := by
  rcases Nat.le_total i goal with hle | hge
  · exact h.keeps i hle hshared
  · exact absurd ((take_prefix_take hge).trans hshared) h.missing

theorem Inv.accepted (h : σ.Inv τ quorum) {f : N} {count goal : Nat}
    (may : σ.MayAccept f count goal) : (σ.accepted f count).Inv τ quorum := by
  refine { h with
    log_sound := ?_
    retains := ?_ }
  · intro g
    by_cases hg : g = f
    · subst hg
      simp only [Consensus.accepted, Function.update_self]
      exact ⟨(h.llog_sound _).1.front (List.take_prefix _ _),
        fun e he => (h.llog_sound _).2 e (List.mem_of_mem_take he)⟩
    · simp only [Consensus.accepted, Function.update_of_ne hg]
      exact h.log_sound g
  · intro g T i hi hkept
    have hold := h.retains g T i hi hkept
    by_cases hg : g = f
    · subst hg
      simp only [Consensus.accepted, Function.update_self]
      rcases Nat.eq_zero_or_pos i with rfl | hpos
      · simp
      · have hT : T ≤ σ.term g := (h.ack_le g T).2 (Nat.lt_of_lt_of_le hpos hi)
        have hlength : ((σ.llog T).take i).length = i := by
          simpa using hi.trans (h.ack_le g T).1
        have hleader : (σ.llog T).take i <+: σ.llog (σ.term g) := by
          rcases Nat.eq_or_lt_of_le hT with heq | hlt
          · rw [heq]
            exact List.take_prefix _ _
          · exact hkept _ hlt le_rfl may.led
        have hsame : (σ.llog (σ.term g)).take i = (σ.llog T).take i := by
          have := List.prefix_iff_eq_take.mp hleader
          rw [hlength] at this
          exact this.symm
        rw [← hsame] at hold ⊢
        exact take_prefix_take (may.shared_le hold)
    · simpa only [Consensus.accepted, Function.update_of_ne hg] using hold

theorem Inv.acknowledged (h : σ.Inv τ quorum) {f : N} {count : Nat}
    (led : σ.lead (σ.term f) ≠ none) (inside : count ≤ (σ.llog (σ.term f)).length)
    (holds : (σ.llog (σ.term f)).take count <+: σ.log f) :
    (σ.acknowledged f count).Inv τ quorum := by
  have hgrow : ∀ g T, σ.ack g T ≤ (σ.acknowledged f count).ack g T := by
    intro g T
    by_cases hsame : g = f ∧ T = σ.term f
    · obtain ⟨rfl, rfl⟩ := hsame
      simp [Consensus.acknowledged, put_same]
    · simp [Consensus.acknowledged, put_other hsame]
  refine { h with
    lead_none := ?_
    ack_le := ?_
    retains := ?_
    voted := ?_
    commit_acks := ?_ }
  · intro T hnone
    refine ⟨(h.lead_none T hnone).1, fun g => ?_⟩
    have hsame : ¬ (g = f ∧ T = σ.term f) := by
      rintro ⟨rfl, rfl⟩
      exact led hnone
    simpa only [Consensus.acknowledged, put_other hsame] using (h.lead_none T hnone).2 g
  · intro g T
    by_cases hsame : g = f ∧ T = σ.term f
    · obtain ⟨rfl, rfl⟩ := hsame
      simp only [Consensus.acknowledged, put_same]
      exact ⟨max_le (h.ack_le g _).1 inside, fun _ => le_rfl⟩
    · simpa only [Consensus.acknowledged, put_other hsame] using h.ack_le g T
  · intro g T i hi hkept
    by_cases hsame : g = f ∧ T = σ.term f
    · obtain ⟨rfl, rfl⟩ := hsame
      simp only [Consensus.acknowledged, put_same] at hi
      rcases le_max_iff.mp hi with hold | hnew
      · exact h.retains g _ i hold hkept
      · exact (take_prefix_take hnew).trans holds
    · simp only [Consensus.acknowledged, put_other hsame] at hi
      exact h.retains g T i hi hkept
  · intro g V c hvote hcounted T i hT hi hkept
    by_cases hsame : g = f ∧ T = σ.term f
    · obtain ⟨rfl, rfl⟩ := hsame
      exact absurd (h.vote_le g V c hvote).2 (Nat.not_le.mpr hT)
    · simp only [Consensus.acknowledged, put_other hsame] at hi
      exact h.voted g V c hvote hcounted T i hT hi hkept
  · intro T hpos
    obtain ⟨hle, hterm, Q, henough, hacks⟩ := h.commit_acks T hpos
    exact ⟨hle, hterm, Q, henough, fun g hg => (hacks g hg).trans (hgrow g T)⟩

omit [DecidableEq N] in
theorem Inv.committed (h : σ.Inv τ quorum) {T i : Nat} {Q : Finset N} (enough : quorum Q)
    (inside : i ≤ (σ.llog T).length) (current : termAt τ (σ.llog T) i = T)
    (acks : ∀ f ∈ Q, i ≤ σ.ack f T) : (σ.committed T i).Inv τ quorum := by
  refine { h with commit_acks := ?_ }
  intro U hpos
  by_cases hU : U = T
  · subst hU
    simp only [Consensus.committed, Function.update_self] at hpos ⊢
    rcases le_total (σ.lcommit U) i with hle | hge
    · rw [max_eq_right hle]
      exact ⟨inside, current, Q, enough, acks⟩
    · rw [max_eq_left hge] at hpos ⊢
      exact h.commit_acks U hpos
  · simp only [Consensus.committed, Function.update_of_ne hU] at hpos ⊢
    exact h.commit_acks U hpos

theorem Inv.step (inter : ∀ Q Q', quorum Q → quorum Q' → ∃ f ∈ Q, f ∈ Q')
    (h : σ.Inv τ quorum) {σ' : Consensus N E} (hstep : Step τ quorum σ σ') :
    σ'.Inv τ quorum := by
  cases hstep with
  | raise f T newer => exact h.raised newer
  | campaign c T newer => exact h.campaigned newer
  | grant f c T newer free campaigns upToDate =>
      exact h.granted newer (h.vote_le c T c campaigns).1 free (.inr campaigns)
        (h.cand_sound c T campaigns) upToDate
  | elect c T Q enough votes campaigns fresh =>
      exact h.elected enough votes campaigns (h.lead_none_of_elect inter enough votes fresh)
  | append c T e leads current holds stamped => exact h.appended leads current holds stamped
  | accept f count goal may => exact h.accepted may
  | acknowledge f count led inside holds => exact h.acknowledged led inside holds
  | commit T i Q enough positive inside current acks => exact h.committed enough inside current acks

omit [DecidableEq N] in
theorem inv_initial : (initial : Consensus N E).Inv τ quorum where
  vote_le _ _ _ h := by simp [initial] at h
  vote_cand _ _ _ h := by simp [initial] at h
  cand_sound _ _ h := by simp [initial] at h
  ballot_sorted _ _ _ h := by simp [initial] at h
  lead_votes _ _ h := by simp [initial] at h
  lead_none _ _ := ⟨rfl, fun _ => rfl⟩
  lead_log _ _ h := by simp [initial] at h
  log_sound _ := ⟨Sound.nil _, by simp [initial]⟩
  llog_sound _ := ⟨Sound.nil _, by simp [initial]⟩
  ack_le _ _ := ⟨le_rfl, by simp [initial]⟩
  retains _ _ _ _ _ := by simp [initial]
  voted _ _ _ h := by simp [initial] at h
  commit_acks _ h := by simp [initial] at h

end Preservation

/-! ## Leader completeness -/

section Completeness

variable {τ : E → Nat} {quorum : Finset N → Prop} {σ : Consensus N E}

theorem Inv.lead_of_termAt (h : σ.Inv τ quorum) {log : List E} (hsound : Sound τ σ.llog log)
    {position : Nat} (hpos : 0 < position) (hle : position ≤ log.length) :
    σ.lead (termAt τ log position) ≠ none := by
  intro hnone
  have hanchored := hsound.anchored position hpos hle
  rw [(h.lead_none _ hnone).1, List.prefix_nil, List.take_eq_nil_iff] at hanchored
  rcases hanchored with hzero | hnil
  · omega
  · simp [hnil] at hle
    omega

/--
Every later leader holds what an earlier one committed.  By induction on the
later term: a voter of the later leader acknowledged the committed prefix, and
the leaders in between held it, so the voter still had it when it voted.
-/
theorem Inv.completeness (inter : ∀ Q Q', quorum Q → quorum Q' → ∃ f ∈ Q, f ∈ Q')
    (h : σ.Inv τ quorum) {T : Nat} (hpos : 0 < σ.lcommit T) (T' : Nat) (hlater : T < T')
    (hled : σ.lead T' ≠ none) : (σ.llog T).take (σ.lcommit T) <+: σ.llog T' := by
  induction T' using Nat.strong_induction_on with
  | _ T' ih =>
    obtain ⟨hinside, hcurrent, Q, henough, hacks⟩ := h.commit_acks T hpos
    obtain ⟨c, hlead⟩ := Option.ne_none_iff_exists'.mp hled
    obtain ⟨henough', hvotes, hcampaigns⟩ := h.lead_votes T' c hlead
    obtain ⟨f, hf, hf'⟩ := inter _ _ henough henough'
    have hvote := hvotes f hf'
    have hballot := h.voted f T' c hvote (.inr hf') T _ hlater (hacks f hf)
      fun U hU hlt hledU => ih U hlt hU hledU
    obtain ⟨hsound, hbelow⟩ := h.cand_sound c T' hcampaigns
    have hupToDate := (h.vote_cand f T' c hvote).2
    refine List.IsPrefix.trans ?_ (h.lead_log T' c hlead).1
    have hlength : ((σ.llog T).take (σ.lcommit T)).length = σ.lcommit T := by simpa using hinside
    -- The voter's log reaches term `T`, so the candidate's does.
    have hvoter : T ≤ lastTerm τ (σ.ballot f T') := by
      have hterm := termAt_front (τ := τ) hballot hlength.ge
      rw [termAt_take le_rfl, hcurrent] at hterm
      rw [← hterm]
      exact (h.ballot_sorted f T' c hvote).termAt_le (hlength ▸ hballot.length_le) le_rfl
    have hreach : T ≤ lastTerm τ (σ.cand c T') := by
      rcases hupToDate with hlt | ⟨heq, -⟩ <;> omega
    have hTpos : 0 < T := by
      rw [← hcurrent]
      obtain ⟨e, he, hterm⟩ := termAt_mem (τ := τ) hpos hinside
      rw [hterm]
      exact (h.llog_sound T).1.positive e he
    have hnonempty : 0 < (σ.cand c T').length := by
      rcases Nat.eq_zero_or_pos (σ.cand c T').length with hzero | hlt
      · rw [lastTerm, hzero, termAt_zero] at hreach
        omega
      · exact hlt
    have hanchored := hsound.anchored _ hnonempty le_rfl
    rw [List.take_length] at hanchored
    change σ.cand c T' <+: σ.llog (lastTerm τ (σ.cand c T')) at hanchored
    obtain ⟨last, hlast, hlastTerm⟩ := termAt_mem (τ := τ) hnonempty le_rfl
    change lastTerm τ (σ.cand c T') = τ last at hlastTerm
    rcases Nat.eq_or_lt_of_le hreach with heq | hlt
    · -- Both logs end in term `T`: the candidate's is the longer prefix of its leader's log.
      rw [← heq] at hanchored
      have hlonger : σ.lcommit T ≤ (σ.cand c T').length := by
        rcases hupToDate with hlt | ⟨-, hle⟩
        · omega
        · exact (hlength ▸ hballot.length_le).trans hle
      rcases prefix_total (List.take_prefix (σ.lcommit T) (σ.llog T)) hanchored with hpre | hpre
      · exact hpre
      · have := hpre.length_le
        rw [hlength] at this
        exact (hpre.eq_of_length (by omega)) ▸ List.prefix_rfl
    · -- The candidate's log ends in a later term, whose leader held the prefix already.
      have hledU := h.lead_of_termAt hsound hnonempty le_rfl
      have hbeforeT' : lastTerm τ (σ.cand c T') < T' := hlastTerm ▸ hbelow last hlast
      have hheld := ih _ hbeforeT' hlt hledU
      rcases prefix_total hheld hanchored with hpre | hpre
      · exact hpre
      · have hin := (h.llog_sound T).2 last (List.mem_of_mem_take (hpre.subset hlast))
        omega

end Completeness

end Consensus

end QuorumKV.Foundation
