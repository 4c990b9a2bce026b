import Mathlib.Data.List.Infix
import Mathlib.Tactic.Common

/-!
# Logs and their terms

A log is a list whose positions count from one, and `τ` gives the term of an
entry.  A log is sound over the leaders' logs when its terms never decrease and
each of its prefixes is a prefix of the log of the leader of its last term.
Two sound logs that agree in a term at a position agree up to it.
-/

namespace QuorumKV.Foundation

variable {E : Type*} {τ : E → Nat}

/-- The term at a position, zero outside the log. -/
def termAt (τ : E → Nat) (log : List E) : Nat → Nat
  | 0 => 0
  | position + 1 => (log[position]?).elim 0 τ

@[simp] theorem termAt_zero (log : List E) : termAt τ log 0 = 0 := rfl

theorem termAt_getElem {log : List E} {position : Nat} (h : position < log.length) :
    termAt τ log (position + 1) = τ log[position] := by
  simp [termAt, h]

theorem termAt_beyond {log : List E} {position : Nat} (h : log.length < position) :
    termAt τ log position = 0 := by
  obtain ⟨offset, rfl⟩ := Nat.exists_eq_add_of_lt h
  simp [termAt]

theorem termAt_front {log other : List E} (h : log <+: other) {position : Nat}
    (hle : position ≤ log.length) : termAt τ other position = termAt τ log position := by
  cases position with
  | zero => rfl
  | succ position =>
      obtain ⟨rest, rfl⟩ := h
      simp [termAt, List.getElem?_append_left hle]

theorem termAt_take {log : List E} {position count : Nat} (h : position ≤ count) :
    termAt τ (log.take count) position = termAt τ log position := by
  cases position with
  | zero => rfl
  | succ position => simp [termAt, List.getElem?_take_of_lt h]

theorem termAt_mem {log : List E} {position : Nat} (hpos : 0 < position)
    (hle : position ≤ log.length) : ∃ e ∈ log, termAt τ log position = τ e := by
  obtain ⟨offset, rfl⟩ := Nat.exists_eq_succ_of_ne_zero hpos.ne'
  exact ⟨log[offset], List.getElem_mem _, termAt_getElem hle⟩

def lastTerm (τ : E → Nat) (log : List E) : Nat := termAt τ log log.length

def UpToDate (τ : E → Nat) (candidate voter : List E) : Prop :=
  lastTerm τ voter < lastTerm τ candidate ∨
    (lastTerm τ candidate = lastTerm τ voter ∧ voter.length ≤ candidate.length)

theorem UpToDate.refl (log : List E) : UpToDate τ log log := .inr ⟨rfl, le_rfl⟩

/-! ## Prefixes -/

theorem prefix_take_of_le {log other : List E} (h : log <+: other) {count : Nat}
    (hle : log.length ≤ count) : log <+: other.take count := by
  rw [List.prefix_take_iff]
  exact ⟨h, hle⟩

theorem prefix_total {left right log : List E} (hleft : left <+: log) (hright : right <+: log) :
    left <+: right ∨ right <+: left :=
  List.prefix_or_prefix_of_prefix hleft hright

theorem take_eq_take {log other : List E} (h : log <+: other) {count : Nat}
    (hle : count ≤ log.length) : other.take count = log.take count := by
  obtain ⟨rest, rfl⟩ := h
  exact List.take_append_of_le_length hle

theorem take_prefix_take {log : List E} {count other : Nat} (h : count ≤ other) :
    log.take count <+: log.take other := by
  rw [List.prefix_take_iff]
  exact ⟨List.take_prefix _ _, (List.length_take_le _ _).trans h⟩

theorem prefix_of_append_term {log front : List E} {e : E} (h : front <+: log ++ [e])
    (hterm : ∀ x ∈ front, τ x ≠ τ e) : front <+: log := by
  rcases List.prefix_concat_iff.mp h with heq | hfront
  · exact absurd rfl (hterm e (by simp [heq]))
  · exact hfront

/-! ## Log matching -/

/-- The log matching property: a shared position with a shared term. -/
def Matching (τ : E → Nat) (log other : List E) : Prop :=
  ∀ position, position ≤ log.length → position ≤ other.length →
    termAt τ log position = termAt τ other position → log.take position = other.take position

theorem Matching.front {log other : List E} (h : log <+: other) : Matching τ log other := by
  intro position hle _ _
  exact (take_eq_take h hle).symm

/-! ## Sound logs -/

def Sorted (τ : E → Nat) (log : List E) : Prop := log.Pairwise fun a b => τ a ≤ τ b

theorem Sorted.termAt_le {log : List E} (h : Sorted τ log) {first last : Nat}
    (hle : first ≤ last) (hlast : last ≤ log.length) :
    termAt τ log first ≤ termAt τ log last := by
  cases first with
  | zero => exact Nat.zero_le _
  | succ first =>
      obtain ⟨last, rfl⟩ := Nat.exists_eq_succ_of_ne_zero (by omega : last ≠ 0)
      rw [termAt_getElem (by omega), termAt_getElem hlast]
      rcases Nat.eq_or_lt_of_le hle with heq | hlt
      · simp only [Nat.succ_eq_add_one, Nat.add_right_cancel_iff] at heq
        simp [heq]
      · exact List.pairwise_iff_getElem.mp h _ _ _ _ (by omega)

structure Sound (τ : E → Nat) (llog : Nat → List E) (log : List E) : Prop where
  sorted : Sorted τ log
  positive : ∀ e ∈ log, 0 < τ e
  anchored : ∀ position, 0 < position → position ≤ log.length →
    log.take position <+: llog (termAt τ log position)

section Sound

variable {llog llog' : Nat → List E} {log other : List E}

theorem Sound.nil (llog : Nat → List E) : Sound τ llog [] :=
  ⟨List.Pairwise.nil, by simp, fun position hpos hle => by simp at hle; omega⟩

theorem Sound.mono (h : Sound τ llog log) (hgrow : ∀ T, llog T <+: llog' T) :
    Sound τ llog' log :=
  ⟨h.sorted, h.positive, fun position hpos hle => (h.anchored position hpos hle).trans (hgrow _)⟩

theorem Sound.front (h : Sound τ llog log) (hfront : other <+: log) : Sound τ llog other := by
  refine ⟨h.sorted.sublist hfront.sublist, fun e he => h.positive e (hfront.subset he), ?_⟩
  intro position hpos hle
  have hanchored := h.anchored position hpos (hle.trans hfront.length_le)
  rwa [termAt_front hfront hle, take_eq_take hfront hle] at hanchored

theorem Sound.append (h : Sound τ llog log) {e : E} (hpos : 0 < τ e)
    (hle : ∀ x ∈ log, τ x ≤ τ e) (hllog : log ++ [e] <+: llog (τ e)) :
    Sound τ llog (log ++ [e]) := by
  refine ⟨?_, ?_, ?_⟩
  · refine List.pairwise_append.mpr ⟨h.sorted, List.pairwise_singleton _ _, ?_⟩
    intro x hx y hy
    rw [List.mem_singleton.mp hy]
    exact hle x hx
  · intro x hx
    rcases List.mem_append.mp hx with hx | hx
    · exact h.positive x hx
    · rw [List.mem_singleton.mp hx]
      exact hpos
  · intro position hzero hlength
    by_cases hold : position ≤ log.length
    · rw [List.take_append_of_le_length hold, termAt_front (List.prefix_append _ _) hold]
      exact h.anchored position hzero hold
    · have hsame : position = log.length + 1 := by
        simp only [List.length_append, List.length_singleton] at hlength
        omega
      have hterm : termAt τ (log ++ [e]) (log.length + 1) = τ e := by simp [termAt]
      rw [hsame, hterm, List.take_of_length_le (by simp)]
      exact hllog

theorem Sound.prefix_llog (h : Sound τ llog log) : log <+: llog (lastTerm τ log) := by
  rcases Nat.eq_zero_or_pos log.length with hzero | hpos
  · rw [List.eq_nil_of_length_eq_zero hzero]
    exact List.nil_prefix
  · have hanchored := h.anchored log.length hpos le_rfl
    rwa [List.take_length] at hanchored

theorem Sound.matching (h : Sound τ llog log) (h' : Sound τ llog other) {position : Nat}
    (hle : position ≤ log.length) (hle' : position ≤ other.length)
    (hterm : termAt τ log position = termAt τ other position) :
    log.take position = other.take position := by
  rcases Nat.eq_zero_or_pos position with rfl | hpos
  · simp
  · have hleft := h.anchored position hpos hle
    have hright := h'.anchored position hpos hle'
    rw [← hterm] at hright
    have hlength : (log.take position).length = (other.take position).length := by
      simp [hle, hle']
    rcases prefix_total hleft hright with hfront | hfront
    · exact hfront.eq_of_length hlength
    · exact (hfront.eq_of_length hlength.symm).symm

/-- The other log has the term of a conflict only before the conflict, where both agree. -/
theorem Sound.before_conflict (h : Sound τ llog log) (h' : Sound τ llog other)
    {position index : Nat} (hpos : 0 < position) (hle : position ≤ log.length)
    (hconflict : termAt τ log position ≠ termAt τ other position) (hindex : 0 < index)
    (hinside : index ≤ other.length) (hterm : termAt τ other index = termAt τ log position) :
    index < position ∧ termAt τ log index = termAt τ log position := by
  have hlog := h.anchored position hpos hle
  have hother := h'.anchored index hindex hinside
  rw [hterm] at hother
  have hlength : (log.take position).length = position := by
    rw [List.length_take]
    omega
  have hotherLength : (other.take index).length = index := by
    rw [List.length_take]
    omega
  rcases prefix_total hlog hother with hfront | hfront
  · have hcovers := hfront.length_le
    rw [hlength, hotherLength] at hcovers
    have hsame := termAt_front (τ := τ) hfront hlength.ge
    rw [termAt_take hcovers, termAt_take le_rfl] at hsame
    exact absurd hsame.symm hconflict
  · have hcovers := hfront.length_le
    rw [hlength, hotherLength] at hcovers
    have hsame := termAt_front (τ := τ) hfront hotherLength.ge
    rw [termAt_take hcovers, termAt_take le_rfl, hterm] at hsame
    refine ⟨Nat.lt_of_le_of_ne hcovers ?_, hsame⟩
    rintro rfl
    exact hconflict hterm.symm

theorem Sound.eq_led (h : Sound τ llog log) {T : Nat} (hbound : ∀ e ∈ log, τ e ≤ T)
    (hpos : 0 < (llog T).length) (hle : (llog T).length ≤ log.length)
    (hterm : termAt τ log (llog T).length = T) : log = llog T := by
  have hlast : lastTerm τ log = T := by
    refine Nat.le_antisymm ?_ ?_
    · obtain ⟨e, he, heq⟩ := termAt_mem (τ := τ) (hpos.trans_le hle) le_rfl
      rw [lastTerm, heq]
      exact hbound e he
    · rw [← hterm]
      exact h.sorted.termAt_le hle le_rfl
  have hfront := h.prefix_llog
  rw [hlast] at hfront
  exact hfront.eq_of_length_le hle

end Sound

end QuorumKV.Foundation
