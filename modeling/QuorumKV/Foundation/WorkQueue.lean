import Mathlib.Tactic.Common

/-!
# Work queues with durable effects

A queue of items is taken from the front.  An item with an effect is saved in the
store before the event that reports it done is stepped, and what that step asks for
joins the end of the queue; every other item is handed out.  The store may refuse
to save an item, and then the queue is left.

`walk` takes a queue through a bounded number of effects and tells the moments it
passed.  `Safe` gives the rules for reasoning about it item by item.
-/

namespace QuorumKV.Foundation

/-- Items `A` on a state `N` and a store `S`, with writes `W` and completion events `E`. -/
structure WorkQueue (N S A E W : Type) where
  effect : A → Option (W × E)
  save : S → W → Option S
  step : N → E → N × List A

namespace WorkQueue

/-- An item is handed out, or the completion of one is stepped. -/
inductive Moment (N S A E : Type) where
  | emitted (state : N) (store : S) (item : A)
  | resumed (state : N) (event : E)

inductive Ending (N S : Type) where
  | finished (state : N) (store : S)
  | refused
  | exhausted

variable {N S A E W : Type}

def Moment.item? : Moment N S A E → Option A
  | .emitted _ _ item => some item
  | .resumed _ _ => none

def emitted (moments : List (Moment N S A E)) : List A := moments.filterMap Moment.item?

section Walk

variable (queue : WorkQueue N S A E W)

def walkWith (next : N → S → List A → List (Moment N S A E) × Ending N S) (state : N)
    (store : S) : List A → List (Moment N S A E) × Ending N S
  | [] => ([], .finished state store)
  | item :: items =>
      match queue.effect item with
      | none =>
          let rest := walkWith next state store items
          (.emitted state store item :: rest.1, rest.2)
      | some (write, event) =>
          match queue.save store write with
          | none => ([], .refused)
          | some saved =>
              let stepped := queue.step state event
              let rest := next stepped.1 saved (items ++ stepped.2)
              (.resumed state event :: rest.1, rest.2)

def walk : Nat → N → S → List A → List (Moment N S A E) × Ending N S
  | 0 => queue.walkWith fun _ _ _ => ([], .exhausted)
  | fuel + 1 => queue.walkWith (walk fuel)

end Walk

/--
The queue finishes within `fuel` effects, or is left at a refusal.  It passes good
moments only, and a state and store it finishes in meet `post`.
-/
inductive Safe (queue : WorkQueue N S A E W) (post : N → S → Prop)
    (good : Moment N S A E → Prop) : Nat → N → S → List A → Prop where
  | done {fuel : Nat} {state : N} {store : S} (finished : post state store) :
      Safe queue post good fuel state store []
  | emit {fuel : Nat} {state : N} {store : S} {item : A} {items : List A}
      (plain : queue.effect item = none) (fine : good (.emitted state store item))
      (rest : Safe queue post good fuel state store items) :
      Safe queue post good fuel state store (item :: items)
  | save {fuel : Nat} {state : N} {store : S} {item : A} {items : List A} {write : W} {event : E}
      (effect : queue.effect item = some (write, event))
      (fine : ∀ saved, queue.save store write = some saved → good (.resumed state event))
      (rest : ∀ saved, queue.save store write = some saved →
        Safe queue post good fuel (queue.step state event).1 saved
          (items ++ (queue.step state event).2)) :
      Safe queue post good (fuel + 1) state store (item :: items)

section Rules

variable {queue : WorkQueue N S A E W} {post : N → S → Prop} {good : Moment N S A E → Prop}
  {fuel : Nat} {state : N} {store : S} {items : List A}

theorem Safe.succ (h : queue.Safe post good fuel state store items) :
    queue.Safe post good (fuel + 1) state store items := by
  induction h with
  | done finished => exact .done finished
  | emit plain fine _ ih => exact .emit plain fine ih
  | save effect fine _ ih => exact .save effect fine ih

theorem Safe.emitAll {plain : List A} (hplain : ∀ item ∈ plain,
      queue.effect item = none ∧ good (.emitted state store item))
    (h : queue.Safe post good fuel state store items) :
    queue.Safe post good fuel state store (plain ++ items) := by
  induction plain with
  | nil => exact h
  | cons item plain ih =>
      obtain ⟨heffect, hgood⟩ := hplain item (by simp)
      exact .emit heffect hgood (ih fun other hmem => hplain other (by simp [hmem]))

theorem Safe.all {plain : List A} (hplain : ∀ item ∈ plain,
      queue.effect item = none ∧ good (.emitted state store item))
    (hpost : post state store) : queue.Safe post good fuel state store plain := by
  have hdone : queue.Safe post good fuel state store [] := .done hpost
  have hall := Safe.emitAll hplain hdone
  rwa [List.append_nil] at hall

theorem Safe.sound (h : queue.Safe post good fuel state store items) :
    (∀ moment ∈ (queue.walk fuel state store items).1, good moment) ∧
      (queue.walk fuel state store items).2 ≠ .exhausted ∧
      ∀ state' store', (queue.walk fuel state store items).2 = .finished state' store' →
        post state' store' := by
  induction h with
  | @done fuel state store finished =>
      have hwalk : queue.walk fuel state store [] = ([], .finished state store) := by
        cases fuel <;> rfl
      rw [hwalk]
      refine ⟨by simp, by simp, fun state' store' hend => ?_⟩
      cases hend
      exact finished
  | @emit fuel state store item items plain fine rest ih =>
      have hwalk : queue.walk fuel state store (item :: items) =
          (.emitted state store item :: (queue.walk fuel state store items).1,
            (queue.walk fuel state store items).2) := by
        cases fuel <;> simp only [walk, walkWith, plain]
      rw [hwalk]
      refine ⟨fun moment hmem => ?_, ih.2⟩
      rcases List.mem_cons.mp hmem with rfl | hmem
      · exact fine
      · exact ih.1 moment hmem
  | @save fuel state store item items write event effect fine rest ih =>
      simp only [walk, walkWith, effect]
      cases hsave : queue.save store write with
      | none => simp
      | some saved =>
          obtain ⟨hgood, hrest⟩ := ih saved hsave
          refine ⟨fun moment hmem => ?_, hrest⟩
          rcases List.mem_cons.mp hmem with rfl | hmem
          · exact fine saved hsave
          · exact hgood moment hmem

end Rules

end WorkQueue

end QuorumKV.Foundation
