import Mathlib.Logic.Relation
import QuorumKV.Foundation.Consensus

/-!
# One committed log

What the leaders commit forms one growing log, `chosen`.  `Known σ T log` says
that some leader of a term up to `T` committed `log`: it is then part of every
later leader's log and of the logs of a quorum, now and in every later state.
-/

namespace QuorumKV.Foundation.Consensus

variable {N E : Type*} {τ : E → Nat} {quorum : Finset N → Prop} {σ σ' : Consensus N E}

/-- The committed part of the log of the leader of `T`. -/
def decided (σ : Consensus N E) (T : Nat) : List E := (σ.llog T).take (σ.lcommit T)

def Known (σ : Consensus N E) (T : Nat) (log : List E) : Prop := ∃ U ≤ T, log <+: σ.decided U

structure Agreed (σ : Consensus N E) : Prop where
  decided_le : ∀ T, σ.decided T <+: σ.chosen
  attained : ∃ T, σ.chosen = σ.decided T

/-- The invariants of a consensus state, and the agreement they lead to. -/
structure Valid (τ : E → Nat) (quorum : Finset N → Prop) (σ : Consensus N E) : Prop where
  inv : σ.Inv τ quorum
  agreed : σ.Agreed

theorem Known.mono {T U : Nat} {log : List E} (h : σ.Known T log) (hle : T ≤ U) :
    σ.Known U log := by
  obtain ⟨V, hV, hlog⟩ := h
  exact ⟨V, hV.trans hle, hlog⟩

theorem Known.front {T : Nat} {log other : List E} (h : σ.Known T log) (hpre : other <+: log) :
    σ.Known T other := by
  obtain ⟨V, hV, hlog⟩ := h
  exact ⟨V, hV, hpre.trans hlog⟩

theorem Known.chosen {T : Nat} {log : List E} (h : σ.Known T log) (hagreed : σ.Agreed) :
    log <+: σ.chosen := by
  obtain ⟨V, -, hlog⟩ := h
  exact hlog.trans (hagreed.decided_le V)

section Quorums

variable (inter : ∀ Q Q', quorum Q → quorum Q' → ∃ f ∈ Q, f ∈ Q')

include inter

theorem Inv.decided_llog (h : σ.Inv τ quorum) {T U : Nat} (hle : T ≤ U)
    (hled : σ.lead U ≠ none) : σ.decided T <+: σ.llog U := by
  rcases Nat.eq_or_lt_of_le hle with rfl | hlt
  · exact List.take_prefix _ _
  · rcases Nat.eq_zero_or_pos (σ.lcommit T) with hzero | hpos
    · simp [decided, hzero]
    · exact h.completeness inter hpos U hlt hled

theorem Known.llog {T : Nat} {log : List E} (hknown : σ.Known T log) (h : σ.Inv τ quorum)
    (hled : σ.lead T ≠ none) : log <+: σ.llog T := by
  obtain ⟨U, hU, hlog⟩ := hknown
  exact hlog.trans (h.decided_llog inter hU hled)

theorem Inv.decided_quorum (h : σ.Inv τ quorum) (some_quorum : ∃ Q, quorum Q) (T : Nat) :
    ∃ Q, quorum Q ∧ ∀ f ∈ Q, σ.decided T <+: σ.log f := by
  rcases Nat.eq_zero_or_pos (σ.lcommit T) with hzero | hpos
  · obtain ⟨Q, hQ⟩ := some_quorum
    exact ⟨Q, hQ, fun f _ => by simp [decided, hzero]⟩
  · obtain ⟨-, -, Q, hQ, hacks⟩ := h.commit_acks T hpos
    refine ⟨Q, hQ, fun f hf => h.retains f T _ (hacks f hf) fun U hU _ hled => ?_⟩
    exact h.completeness inter hpos U hU hled

theorem Inv.decided_total (h : σ.Inv τ quorum) (T U : Nat) :
    σ.decided T <+: σ.decided U ∨ σ.decided U <+: σ.decided T := by
  have key : ∀ T U, T ≤ U → σ.decided T <+: σ.decided U ∨ σ.decided U <+: σ.decided T := by
    intro T U hle
    cases hlead : σ.lead U with
    | none => simp [decided, (h.lead_none U hlead).1]
    | some c =>
        exact prefix_total (h.decided_llog inter hle (by simp [hlead])) (List.take_prefix _ _)
  rcases Nat.le_total T U with hle | hle
  · exact key T U hle
  · exact (key U T hle).symm

end Quorums

/-! ## What steps preserve -/

structure Extends (σ σ' : Consensus N E) : Prop where
  term_le : ∀ f, σ.term f ≤ σ'.term f
  llog_le : ∀ T, σ.llog T <+: σ'.llog T
  lead_eq : ∀ T c, σ.lead T = some c → σ'.lead T = some c
  vote_eq : ∀ f T c, σ.vote f T = some c → σ'.vote f T = some c
  cand_eq : ∀ c T, σ.vote c T = some c → σ'.cand c T = σ.cand c T
  ack_le : ∀ f T, σ.ack f T ≤ σ'.ack f T
  lcommit_le : ∀ T, σ.lcommit T ≤ σ'.lcommit T
  chosen_le : σ.chosen <+: σ'.chosen

theorem Extends.refl (σ : Consensus N E) : Extends σ σ :=
  ⟨fun _ => le_rfl, fun _ => List.prefix_rfl, fun _ _ => id, fun _ _ _ => id, fun _ _ _ => rfl,
    fun _ _ => le_rfl, fun _ => le_rfl, List.prefix_rfl⟩

theorem Extends.trans {σ'' : Consensus N E} (h : Extends σ σ') (h' : Extends σ' σ'') :
    Extends σ σ'' where
  term_le f := (h.term_le f).trans (h'.term_le f)
  llog_le T := (h.llog_le T).trans (h'.llog_le T)
  lead_eq T c hlead := h'.lead_eq T c (h.lead_eq T c hlead)
  vote_eq f T c hvote := h'.vote_eq f T c (h.vote_eq f T c hvote)
  cand_eq c T hvote := (h'.cand_eq c T (h.vote_eq c T c hvote)).trans (h.cand_eq c T hvote)
  ack_le f T := (h.ack_le f T).trans (h'.ack_le f T)
  lcommit_le T := (h.lcommit_le T).trans (h'.lcommit_le T)
  chosen_le := h.chosen_le.trans h'.chosen_le

theorem Extends.led (h : Extends σ σ') {T : Nat} (hled : σ.lead T ≠ none) :
    σ'.lead T ≠ none := by
  obtain ⟨c, hc⟩ := Option.ne_none_iff_exists'.mp hled
  simp [h.lead_eq T c hc]

theorem Extends.decided_le (h : Extends σ σ') (T : Nat) :
    σ.decided T <+: σ'.decided T := by
  refine prefix_take_of_le ((List.take_prefix _ _).trans (h.llog_le T)) ?_
  exact (List.length_take_le _ _).trans (h.lcommit_le T)

theorem Known.extend {T : Nat} {log : List E} (hknown : σ.Known T log) (h : Extends σ σ') :
    σ'.Known T log := by
  obtain ⟨U, hU, hlog⟩ := hknown
  exact ⟨U, hU, hlog.trans (h.decided_le U)⟩

theorem Inv.lcommit_le (h : σ.Inv τ quorum) (T : Nat) : σ.lcommit T ≤ (σ.llog T).length := by
  rcases Nat.eq_zero_or_pos (σ.lcommit T) with hzero | hpos
  · simp [hzero]
  · exact (h.commit_acks T hpos).1

theorem Inv.decided_length (h : σ.Inv τ quorum) (T : Nat) :
    (σ.decided T).length = σ.lcommit T := by
  simpa [decided] using h.lcommit_le T

theorem Extends.agreed (h : Extends σ σ') (hinv : σ.Inv τ quorum) (hagreed : σ.Agreed)
    (hlcommit : σ'.lcommit = σ.lcommit) (hchosen : σ'.chosen = σ.chosen) : σ'.Agreed := by
  have hdecided : ∀ T, σ'.decided T = σ.decided T := by
    intro T
    simp only [decided, hlcommit]
    exact take_eq_take (h.llog_le T) (hinv.lcommit_le T)
  obtain ⟨T, hT⟩ := hagreed.attained
  exact ⟨fun T => by rw [hdecided, hchosen]; exact hagreed.decided_le T,
    T, by rw [hdecided, hchosen]; exact hT⟩

section Steps

variable [DecidableEq N]

omit [DecidableEq N] in
theorem Inv.committed_agreed (hinter : ∀ Q Q', quorum Q → quorum Q' → ∃ f ∈ Q, f ∈ Q')
    (hinv : σ.Inv τ quorum) (hagreed : σ.Agreed) {T i : Nat}
    (hinv' : (σ.committed T i).Inv τ quorum) (inside : i ≤ (σ.llog T).length) :
    σ.chosen <+: (σ.committed T i).chosen ∧ (σ.committed T i).Agreed := by
  obtain ⟨V, hV⟩ := hagreed.attained
  have hgrow : ∀ U, σ.decided U <+: (σ.committed T i).decided U := by
    intro U
    by_cases hU : U = T
    · subst hU
      simp only [decided, Consensus.committed, Function.update_self]
      exact take_prefix_take (le_max_left _ _)
    · simp [decided, Consensus.committed, hU]
  have hsame : ∀ U, U ≠ T ∨ i ≤ σ.lcommit U → (σ.committed T i).decided U = σ.decided U := by
    intro U hU
    by_cases hUT : U = T
    · subst hUT
      simp [decided, Consensus.committed, hU.resolve_left (by simp)]
    · simp [decided, Consensus.committed, hUT]
  have hnew : σ.lcommit T ≤ i →
      (σ.committed T i).decided T = (σ.llog T).take i := by
    intro hle
    simp [decided, Consensus.committed, hle]
  have hlength := hinv.decided_length
  have hbound : ∀ U, σ.lcommit U ≤ σ.chosen.length := fun U =>
    (hlength U) ▸ (hagreed.decided_le U).length_le
  by_cases hlonger : σ.chosen.length < i
  · have hchosen : (σ.committed T i).chosen = (σ.llog T).take i := by
      simp [Consensus.committed, hlonger]
    have htop := hnew ((hbound T).trans hlonger.le)
    have hle : ∀ U, (σ.committed T i).decided U <+: (σ.llog T).take i := by
      intro U
      rw [← htop]
      rcases hinv'.decided_total hinter U T with hpre | hpre
      · exact hpre
      · by_cases hU : U = T
        · rw [hU]
        · have hlen := hpre.length_le
          rw [htop, hsame U (.inl hU), hlength U, List.length_take] at hlen
          have := hbound U
          omega
    refine ⟨?_, ?_, T, ?_⟩
    · rw [hchosen, hV]
      exact (hgrow V).trans (hle V)
    · intro U
      rw [hchosen]
      exact hle U
    · rw [hchosen, htop]
  · have hchosen : (σ.committed T i).chosen = σ.chosen := by
      simp [Consensus.committed, hlonger]
    have hVsame : (σ.committed T i).decided V = σ.decided V := by
      apply hsame
      rw [← hlength V, ← hV]
      exact .inr (Nat.not_lt.mp hlonger)
    refine ⟨hchosen ▸ List.prefix_rfl, fun U => ?_, V, by rw [hchosen, hVsame, hV]⟩
    rw [hchosen]
    by_cases hU : U ≠ T ∨ i ≤ σ.lcommit U
    · rw [hsame U hU]
      exact hagreed.decided_le U
    · rw [not_or, not_not, Nat.not_le] at hU
      obtain ⟨rfl, hlt⟩ := hU
      rcases hinv'.decided_total hinter U V with hpre | hpre
      · rwa [hVsame, ← hV] at hpre
      · have htop := hnew hlt.le
        rw [hVsame, ← hV] at hpre
        have hlen : ((σ.committed U i).decided U).length ≤ σ.chosen.length := by
          rw [htop, List.length_take]
          omega
        rw [hpre.eq_of_length (le_antisymm hpre.length_le hlen)]

theorem Step.extends (hinter : ∀ Q Q', quorum Q → quorum Q' → ∃ f ∈ Q, f ∈ Q')
    (hstep : Step τ quorum σ σ') (hinv : σ.Inv τ quorum) (hagreed : σ.Agreed) :
    Extends σ σ' ∧ σ'.Agreed := by
  have hinv' := hinv.step hinter hstep
  have hrefl := Extends.refl σ
  cases hstep with
  | raise f T newer =>
      have hext : Extends σ (σ.raised f T) := { hrefl with term_le := le_update newer }
      exact ⟨hext, hext.agreed hinv hagreed rfl rfl⟩
  | campaign c T newer =>
      have hfree : ∀ d U e, σ.vote d U = some e → ¬ (d = c ∧ U = T) := by
        rintro d U e hvote ⟨rfl, rfl⟩
        exact absurd (hinv.vote_le d U e hvote).2 (Nat.not_le.mpr newer)
      have hext : Extends σ (σ.campaigned c T) :=
        { hrefl with
          term_le := le_update newer.le
          vote_eq := fun f U d hvote => (put_other (hfree f U d hvote)).trans hvote
          cand_eq := fun d U hvote => put_other (hfree d U d hvote) }
      exact ⟨hext, hext.agreed hinv hagreed rfl rfl⟩
  | grant f c T newer free campaigns upToDate =>
      have hext : Extends σ (σ.granted f c T) :=
        { hrefl with
          term_le := le_update newer
          vote_eq := fun g U d hvote => by
            refine (put_other ?_).trans hvote
            rintro ⟨rfl, rfl⟩
            exact absurd (free.symm.trans hvote) (by simp) }
      exact ⟨hext, hext.agreed hinv hagreed rfl rfl⟩
  | elect c T Q enough votes campaigns fresh =>
      have hnone := hinv.lead_none_of_elect hinter enough votes fresh
      have hext : Extends σ (σ.elected c T Q) :=
        { hrefl with
          llog_le := fun U => by
            by_cases hU : U = T
            · simp [hU, (hinv.lead_none T hnone).1]
            · simp [Consensus.elected, hU]
          lead_eq := fun U d hlead => by
            have hU : U ≠ T := by
              rintro rfl
              exact absurd (hnone.symm.trans hlead) (by simp)
            simpa [Consensus.elected, hU] using hlead }
      exact ⟨hext, hext.agreed hinv hagreed rfl rfl⟩
  | append c T e leads current holds stamped =>
      have hext : Extends σ (σ.appended c T e) :=
        { hrefl with
          llog_le := fun U => by
            by_cases hU : U = T
            · simp [Consensus.appended, hU]
            · simp [Consensus.appended, hU] }
      exact ⟨hext, hext.agreed hinv hagreed rfl rfl⟩
  | accept f count goal may =>
      have hext : Extends σ (σ.accepted f count) := { hrefl with }
      exact ⟨hext, hext.agreed hinv hagreed rfl rfl⟩
  | acknowledge f count led inside holds =>
      have hext : Extends σ (σ.acknowledged f count) :=
        { hrefl with
          ack_le := fun g U => by
            by_cases hsame : g = f ∧ U = σ.term f
            · obtain ⟨rfl, rfl⟩ := hsame
              simp [Consensus.acknowledged, put_same]
            · simp [Consensus.acknowledged, put_other hsame] }
      exact ⟨hext, hext.agreed hinv hagreed rfl rfl⟩
  | commit T i Q enough positive inside current acks =>
      obtain ⟨hchosen, hagreed'⟩ := hinv.committed_agreed hinter hagreed hinv' inside
      exact ⟨{ hrefl with
        lcommit_le := fun U => by
          by_cases hU : U = T
          · simp [Consensus.committed, hU]
          · simp [Consensus.committed, hU]
        chosen_le := hchosen }, hagreed'⟩

theorem Valid.step (hinter : ∀ Q Q', quorum Q → quorum Q' → ∃ f ∈ Q, f ∈ Q')
    (h : σ.Valid τ quorum) (hstep : Step τ quorum σ σ') : σ'.Valid τ quorum ∧ Extends σ σ' := by
  obtain ⟨hext, hagreed⟩ := hstep.extends hinter h.inv h.agreed
  exact ⟨⟨h.inv.step hinter hstep, hagreed⟩, hext⟩

end Steps

/-- While a quorum has not left `T`, a leader of `T` that has committed has committed it all. -/
theorem Valid.chosen_le_lcommit (hinter : ∀ Q Q', quorum Q → quorum Q' → ∃ f ∈ Q, f ∈ Q')
    (h : σ.Valid τ quorum) {T : Nat} (hled : σ.lead T ≠ none) (hpos : 0 < σ.lcommit T)
    {Q : Finset N} (hquorum : quorum Q) (hterm : ∀ f ∈ Q, σ.term f ≤ T) :
    σ.chosen.length ≤ σ.lcommit T := by
  obtain ⟨V, hV⟩ := h.agreed.attained
  rw [hV, h.inv.decided_length]
  rcases Nat.lt_trichotomy V T with hlt | rfl | hgt
  · -- What earlier leaders committed comes before the first entry of `T`.
    by_contra hmore
    have hfront := h.inv.decided_llog hinter hlt.le hled
    have hinside : σ.lcommit T ≤ (σ.decided V).length := by
      rw [h.inv.decided_length]
      omega
    obtain ⟨e, he, heq⟩ := termAt_mem (τ := τ) hpos hinside
    have hbound := (h.inv.llog_sound V).2 e (List.mem_of_mem_take he)
    have hown := (h.inv.commit_acks T hpos).2.1
    rw [termAt_front hfront hinside] at hown
    omega
  · exact le_rfl
  · rcases Nat.eq_zero_or_pos (σ.lcommit V) with hzero | hcommitted
    · omega
    · obtain ⟨-, -, Q', hQ', hacks⟩ := h.inv.commit_acks V hcommitted
      obtain ⟨f, hf, hf'⟩ := hinter Q Q' hquorum hQ'
      have hack := (h.inv.ack_le f V).2 (hcommitted.trans_le (hacks f hf'))
      have := hterm f hf
      omega

theorem valid_initial : (initial : Consensus N E).Valid τ quorum :=
  ⟨inv_initial, fun _ => by simp [decided, initial], 0, by simp [decided, initial]⟩

/-! ## Followers in step with their leader -/

/-- The follower has left term `T`, or its log is part of the log of the leader of `T`. -/
def Follows (σ : Consensus N E) (T : Nat) (f : N) : Prop :=
  T < σ.term f ∨ (σ.term f = T ∧ σ.log f <+: σ.llog T)

/--
The leader of `T` may offer entries up to `position`: a follower in its term
that holds all of them holds nothing else.
-/
def Ready (σ : Consensus N E) (T : Nat) (f : N) (position : Nat) : Prop :=
  σ.Follows T f ∨ (σ.term f = T ∧ ¬ (σ.llog T).take position <+: σ.log f)

theorem Ready.mono {T position other : Nat} {f : N} (h : σ.Ready T f position)
    (hle : position ≤ other) : σ.Ready T f other := by
  rcases h with hfollows | ⟨hterm, hmissing⟩
  · exact .inl hfollows
  · exact .inr ⟨hterm, fun hheld => hmissing ((take_prefix_take hle).trans hheld)⟩

theorem Inv.follows_of_term (h : σ.Inv τ quorum) {f : N} {position : Nat}
    (hpos : 0 < position) (hle : position ≤ (σ.log f).length)
    (hterm : termAt τ (σ.log f) position = σ.term f) : σ.Follows (σ.term f) f := by
  obtain ⟨hsound, hbound⟩ := h.log_sound f
  have hlength : 0 < (σ.log f).length := hpos.trans_le hle
  have hlast : lastTerm τ (σ.log f) = σ.term f := by
    obtain ⟨e, he, heq⟩ := termAt_mem (τ := τ) hlength le_rfl
    have hupper : lastTerm τ (σ.log f) ≤ σ.term f := by
      rw [lastTerm, heq]
      exact hbound e he
    have hlower := hsound.sorted.termAt_le hle le_rfl
    rw [hterm] at hlower
    exact le_antisymm hupper hlower
  exact .inr ⟨rfl, hlast ▸ hsound.prefix_llog⟩

/--
The leader of `T` may send `f` the entries after `previous` up to `position`:
the previous entry is its own, or `position` is one it may offer.
-/
def Offers (τ : E → Nat) (σ : Consensus N E) (T : Nat) (f : N) (previous position : Nat) :
    Prop :=
  termAt τ (σ.llog T) previous = T ∨ σ.Ready T f position

theorem Offers.mono {T previous position other : Nat} {f : N}
    (h : σ.Offers τ T f previous position) (hle : position ≤ other) :
    σ.Offers τ T f previous other := by
  rcases h with hown | hready
  · exact .inl hown
  · exact .inr (hready.mono hle)

theorem Inv.offers_later (h : σ.Inv τ quorum) {T position other : Nat} {f : N}
    (hoffers : σ.Offers τ T f position position) (hle : position ≤ other)
    (hinside : other ≤ (σ.llog T).length) : σ.Offers τ T f other other := by
  rcases hoffers with hown | hready
  · refine .inl ?_
    rcases Nat.eq_zero_or_pos other with rfl | hpos
    · rwa [Nat.le_zero.mp hle] at hown
    · obtain ⟨hsound, hbound⟩ := h.llog_sound T
      obtain ⟨e, he, heq⟩ := termAt_mem (τ := τ) hpos hinside
      have hsorted := hsound.sorted.termAt_le hle hinside
      have := hbound e he
      omega
  · exact .inr (hready.mono hle)

theorem Inv.follows_of_offer (h : σ.Inv τ quorum) {f : N} {previous position : Nat}
    (hterm : 0 < σ.term f) (hoffer : σ.Offers τ (σ.term f) f previous position)
    (hinside : previous ≤ (σ.llog (σ.term f)).length)
    (hprevious : (σ.llog (σ.term f)).take previous <+: σ.log f)
    (hposition : (σ.llog (σ.term f)).take position <+: σ.log f) :
    σ.Follows (σ.term f) f := by
  rcases hoffer with hown | hfollows | ⟨-, hmissing⟩
  · have hpos : 0 < previous := by
      rcases Nat.eq_zero_or_pos previous with rfl | hpos
      · simp only [termAt_zero] at hown
        omega
      · exact hpos
    have hlength : ((σ.llog (σ.term f)).take previous).length = previous := by
      simpa using hinside
    refine h.follows_of_term hpos ?_ ?_
    · simpa [hlength] using hprevious.length_le
    · rw [termAt_front hprevious hlength.ge, termAt_take le_rfl, hown]
  · exact hfollows
  · exact absurd hposition hmissing

/--
What a rejection says about a follower in term `T`: its log ends before `index`,
or it differs from its leader's at some later position that carries, like
`index` itself, the term `term`.
-/
def Hint (τ : E → Nat) (σ : Consensus N E) (T : Nat) (f : N) (term index : Nat) : Prop :=
  σ.Follows T f ∨ (σ.term f = T ∧
    ((term = 0 ∧ (σ.log f).length < index ∧ index ≤ (σ.llog T).length) ∨
      (term ≠ 0 ∧ ∃ later, index ≤ later ∧ later ≤ (σ.llog T).length ∧
        termAt τ (σ.log f) index = term ∧ termAt τ (σ.log f) later = term ∧
        termAt τ (σ.llog T) later ≠ term)))

/-! ## Taking over a leader's log -/

/-- A follower may go anywhere between what it shares with its leader and a goal beyond. -/
theorem mayAccept_of_shared {f : N} {shared count goal : Nat} (led : σ.lead (σ.term f) ≠ none)
    (hgoal : goal ≤ (σ.llog (σ.term f)).length) (hlt : shared < goal) (hle : shared ≤ count)
    (hcount : count ≤ goal)
    (hkeeps : ∀ other ≤ goal, (σ.llog (σ.term f)).take other <+: σ.log f → other ≤ shared) :
    σ.MayAccept f count goal where
  led := led
  goal_le := hgoal
  count_le := hcount
  missing hheld := by
    have := hkeeps goal le_rfl hheld
    omega
  keeps other hother hheld := (hkeeps other hother hheld).trans hle

theorem shared_of_take {f : N} {shared other : Nat}
    (hlog : σ.log f = (σ.llog (σ.term f)).take shared)
    (hinside : other ≤ (σ.llog (σ.term f)).length)
    (hheld : (σ.llog (σ.term f)).take other <+: σ.log f) : other ≤ shared := by
  have hlength := hheld.length_le
  rw [hlog, List.length_take, List.length_take] at hlength
  omega

end QuorumKV.Foundation.Consensus
