import QuorumKV.Foundation.Agreement

/-!
# Steps of one node

What the steps taken by one node can change, and what they leave alone for the
others.  `ActsAt f σ σ'` collects it for any number of steps of `f`, so that a
fact about another node or about a message is carried over at once.
-/

namespace QuorumKV.Foundation.Consensus

variable {N E : Type*} {τ : E → Nat} {quorum : Finset N → Prop} {σ σ' σ'' : Consensus N E}

structure ActsAt (τ : E → Nat) (quorum : Finset N → Prop) (f : N) (σ σ' : Consensus N E) :
    Prop where
  valid : σ'.Valid τ quorum
  history : Extends σ σ'
  term_eq : ∀ g, g ≠ f → σ'.term g = σ.term g
  log_eq : ∀ g, g ≠ f → σ'.log g = σ.log g
  vote_eq : ∀ g, g ≠ f → σ'.vote g = σ.vote g
  lead_new : ∀ T g, g ≠ f → σ'.lead T = some g → σ.lead T = some g
  llog_eq : ∀ T g, g ≠ f → σ.lead T = some g → σ'.llog T = σ.llog T
  lcommit_eq : ∀ T g, g ≠ f → σ.lead T = some g → σ'.lcommit T = σ.lcommit T
  stays : ∀ g, σ'.Follows (σ.term g) g ∨ (σ'.term g = σ.term g ∧ σ'.log g = σ.log g)
  frozen : ∀ g T, T < σ.term g → σ'.ack g T = σ.ack g T

namespace ActsAt

variable {f : N}

theorem refl (h : σ.Valid τ quorum) : ActsAt τ quorum f σ σ :=
  ⟨h, Extends.refl σ, fun _ _ => rfl, fun _ _ => rfl, fun _ _ => rfl, fun _ _ _ => id,
    fun _ _ _ _ => rfl, fun _ _ _ _ => rfl, fun _ => .inr ⟨rfl, rfl⟩, fun _ _ _ => rfl⟩

theorem follows (h : ActsAt τ quorum f σ σ') {T : Nat} {g : N} (hfollows : σ.Follows T g) :
    σ'.Follows T g := by
  rcases hfollows with hlt | ⟨rfl, hlog⟩
  · exact .inl (hlt.trans_le (h.history.term_le g))
  · rcases h.stays g with hfollows | ⟨hterm, hsame⟩
    · exact hfollows
    · exact .inr ⟨hterm, hsame ▸ hlog.trans (h.history.llog_le _)⟩

theorem ready (h : ActsAt τ quorum f σ σ') {T position : Nat} {g : N}
    (hready : σ.Ready T g position) (hinside : position ≤ (σ.llog T).length) :
    σ'.Ready T g position := by
  rcases hready with hfollows | ⟨rfl, hmissing⟩
  · exact .inl (h.follows hfollows)
  · rcases h.stays g with hfollows | ⟨hterm, hsame⟩
    · exact .inl hfollows
    · refine .inr ⟨hterm, ?_⟩
      rwa [hsame, take_eq_take (h.history.llog_le _) hinside]

theorem offers (h : ActsAt τ quorum f σ σ') {T previous position : Nat} {g : N}
    (hoffers : σ.Offers τ T g previous position) (hprevious : previous ≤ (σ.llog T).length)
    (hposition : position ≤ (σ.llog T).length) : σ'.Offers τ T g previous position := by
  rcases hoffers with hown | hready
  · exact .inl ((termAt_front (h.history.llog_le T) hprevious).trans hown)
  · exact .inr (h.ready hready hposition)

theorem hint (h : ActsAt τ quorum f σ σ') {T term index : Nat} {g : N}
    (hhint : σ.Hint τ T g term index) : σ'.Hint τ T g term index := by
  have hgrow := h.history.llog_le T
  rcases hhint with hfollows | ⟨rfl, hdiffers⟩
  · exact .inl (h.follows hfollows)
  · rcases h.stays g with hfollows | ⟨hterm, hlog⟩
    · exact .inl hfollows
    · refine .inr ⟨hterm, ?_⟩
      rw [hlog]
      rcases hdiffers with ⟨hzero, hshort, hinside⟩ |
        ⟨hne, later, hle, hinside, hfirst, hlater, hother⟩
      · exact .inl ⟨hzero, hshort, hinside.trans hgrow.length_le⟩
      · exact .inr ⟨hne, later, hle, hinside.trans hgrow.length_le, hfirst, hlater,
          by rwa [termAt_front hgrow hinside]⟩

theorem trans (h : ActsAt τ quorum f σ σ') (h' : ActsAt τ quorum f σ' σ'') :
    ActsAt τ quorum f σ σ'' where
  valid := h'.valid
  history := h.history.trans h'.history
  term_eq g hg := (h'.term_eq g hg).trans (h.term_eq g hg)
  log_eq g hg := (h'.log_eq g hg).trans (h.log_eq g hg)
  vote_eq g hg := (h'.vote_eq g hg).trans (h.vote_eq g hg)
  lead_new T g hg hlead := h.lead_new T g hg (h'.lead_new T g hg hlead)
  llog_eq T g hg hlead :=
    (h'.llog_eq T g hg (h.history.lead_eq T g hlead)).trans (h.llog_eq T g hg hlead)
  lcommit_eq T g hg hlead :=
    (h'.lcommit_eq T g hg (h.history.lead_eq T g hlead)).trans (h.lcommit_eq T g hg hlead)
  stays g := by
    rcases h.stays g with hfollows | ⟨hterm, hlog⟩
    · exact .inl (h'.follows hfollows)
    · rcases h'.stays g with hfollows | ⟨hterm', hlog'⟩
      · exact .inl (hterm ▸ hfollows)
      · exact .inr ⟨hterm'.trans hterm, hlog'.trans hlog⟩
  frozen g T hlt :=
    (h'.frozen g T (hlt.trans_le (h.history.term_le g))).trans (h.frozen g T hlt)

section Steps

variable [DecidableEq N] (inter : ∀ Q Q', quorum Q → quorum Q' → ∃ f ∈ Q, f ∈ Q')
  (h : σ.Valid τ quorum)

include inter h

theorem of_vote (hstep : Step τ quorum σ σ') (hterm : ∀ g, g ≠ f → σ'.term g = σ.term g)
    (hvote : ∀ g, g ≠ f → σ'.vote g = σ.vote g) (hlog : σ'.log = σ.log)
    (hlead : σ'.lead = σ.lead) (hllog : σ'.llog = σ.llog) (hlcommit : σ'.lcommit = σ.lcommit)
    (hack : σ'.ack = σ.ack) : ActsAt τ quorum f σ σ' := by
  obtain ⟨hvalid, hext⟩ := h.step inter hstep
  refine ⟨hvalid, hext, hterm, fun g _ => by rw [hlog], hvote, fun T g _ => by rw [hlead]; exact id,
    fun T g _ _ => by rw [hllog], fun T g _ _ => by rw [hlcommit], fun g => ?_,
    fun g T _ => by rw [hack]⟩
  rcases Nat.lt_or_eq_of_le (hext.term_le g) with hlt | heq
  · exact .inl (.inl hlt)
  · exact .inr ⟨heq.symm, by rw [hlog]⟩

theorem raise {T : Nat} (newer : σ.term f ≤ T) : ActsAt τ quorum f σ (σ.raised f T) :=
  of_vote inter h (Step.raise σ f T newer)
    (fun g hg => by simp [Consensus.raised, hg]) (fun _ _ => rfl) rfl rfl rfl rfl rfl

theorem campaign {T : Nat} (newer : σ.term f < T) :
    ActsAt τ quorum f σ (σ.campaigned f T) :=
  of_vote inter h (Step.campaign σ f T newer)
    (fun g hg => by simp [Consensus.campaigned, hg])
    (fun g hg => by funext U; exact put_other (by simp [hg])) rfl rfl rfl rfl rfl

theorem grant {c : N} {T : Nat} (newer : σ.term f ≤ T) (free : σ.vote f T = none)
    (campaigns : σ.vote c T = some c) (upToDate : UpToDate τ (σ.cand c T) (σ.log f)) :
    ActsAt τ quorum f σ (σ.granted f c T) :=
  of_vote inter h (Step.grant σ f c T newer free campaigns upToDate)
    (fun g hg => by simp [Consensus.granted, hg])
    (fun g hg => by funext U; exact put_other (by simp [hg])) rfl rfl rfl rfl rfl

theorem elect {T : Nat} {Q : Finset N} (enough : quorum Q)
    (votes : ∀ g ∈ Q, σ.vote g T = some f) (campaigns : σ.vote f T = some f)
    (fresh : σ.lead T ≠ some f) : ActsAt τ quorum f σ (σ.elected f T Q) := by
  obtain ⟨hvalid, hext⟩ := h.step inter (Step.elect σ f T Q enough votes campaigns fresh)
  have hnone := h.inv.lead_none_of_elect inter enough votes fresh
  have hother : ∀ U g, σ.lead U = some g → U ≠ T := by
    rintro U g hlead rfl
    simp [hnone] at hlead
  refine { refl h with
    valid := hvalid
    history := hext
    lead_new := fun U g hg hlead => ?_
    llog_eq := fun U g _ hlead => ?_
    stays := fun g => .inr ⟨rfl, rfl⟩ }
  · by_cases hU : U = T
    · simp [Consensus.elected, hU, Ne.symm hg] at hlead
    · simpa [Consensus.elected, hU] using hlead
  · simp [Consensus.elected, hother U g hlead]

theorem append {T : Nat} {e : E} (leads : σ.lead T = some f) (current : σ.term f = T)
    (holds : σ.log f = σ.llog T) (stamped : τ e = T) :
    ActsAt τ quorum f σ (σ.appended f T e) := by
  obtain ⟨hvalid, hext⟩ := h.step inter (Step.append σ f T e leads current holds stamped)
  refine { refl h with
    valid := hvalid
    history := hext
    log_eq := fun g hg => ?_
    llog_eq := fun U g hg hlead => ?_
    stays := fun g => ?_ }
  · simp [Consensus.appended, hg]
  · have hU : U ≠ T := by
      rintro rfl
      rw [leads] at hlead
      exact hg (Option.some.inj hlead).symm
    simp [Consensus.appended, hU]
  · by_cases hg : g = f
    · subst hg
      exact .inl (.inr ⟨rfl, by simp [Consensus.appended, current]⟩)
    · exact .inr ⟨rfl, by simp [Consensus.appended, hg]⟩

theorem accept {count goal : Nat} (may : σ.MayAccept f count goal) :
    ActsAt τ quorum f σ (σ.accepted f count) := by
  obtain ⟨hvalid, hext⟩ := h.step inter (Step.accept σ f count goal may)
  refine { refl h with
    valid := hvalid
    history := hext
    log_eq := fun g hg => ?_
    stays := fun g => ?_ }
  · simp [Consensus.accepted, hg]
  · by_cases hg : g = f
    · subst hg
      refine .inl (.inr ⟨rfl, ?_⟩)
      simp only [Consensus.accepted, Function.update_self]
      exact List.take_prefix _ _
    · exact .inr ⟨rfl, by simp [Consensus.accepted, hg]⟩

theorem acknowledge {count : Nat} (led : σ.lead (σ.term f) ≠ none)
    (inside : count ≤ (σ.llog (σ.term f)).length)
    (holds : (σ.llog (σ.term f)).take count <+: σ.log f) :
    ActsAt τ quorum f σ (σ.acknowledged f count) := by
  obtain ⟨hvalid, hext⟩ := h.step inter (Step.acknowledge σ f count led inside holds)
  refine { refl h with
    valid := hvalid
    history := hext
    stays := fun g => .inr ⟨rfl, rfl⟩
    frozen := fun g T hlt => put_other ?_ }
  rintro ⟨rfl, rfl⟩
  exact Nat.lt_irrefl _ hlt

theorem commit {T i : Nat} {Q : Finset N} (leads : σ.lead T = some f) (enough : quorum Q)
    (positive : 0 < i) (inside : i ≤ (σ.llog T).length)
    (current : termAt τ (σ.llog T) i = T) (acks : ∀ g ∈ Q, i ≤ σ.ack g T) :
    ActsAt τ quorum f σ (σ.committed T i) := by
  obtain ⟨hvalid, hext⟩ :=
    h.step inter (Step.commit σ T i Q enough positive inside current acks)
  refine { refl h with
    valid := hvalid
    history := hext
    lcommit_eq := fun U g hg hlead => ?_
    stays := fun g => .inr ⟨rfl, rfl⟩ }
  have hU : U ≠ T := by
    rintro rfl
    rw [leads] at hlead
    exact hg (Option.some.inj hlead).symm
  simp [Consensus.committed, hU]

end Steps

end ActsAt

end QuorumKV.Foundation.Consensus
