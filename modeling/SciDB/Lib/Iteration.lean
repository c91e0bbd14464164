import Mathlib

/-!
# Iterators

An iterator is a state with a current item, or none at its end, and a fallible call
that moves on.  It visits a list when reading the current item and moving on, again
and again, yields the members of the list and then reaches the end.

Main results:

- Theorem {lit}`visits_rest`: an iterator visits what a step keeps track of.
- Theorem {lit}`Visits.unique`: an iterator visits only one list.
- Theorem {lit}`Visits.reaches_end`: moving on often enough reaches the end.
-/

namespace SciDB.Iteration

variable {σ β ε : Type*} {current : σ → Option β} {next : σ → Except ε σ} {s s' : σ} {x : β}
  {l l' : List β}

/-- From a state on, the items of the list are current one after the other. -/
inductive Visits (current : σ → Option β) (next : σ → Except ε σ) : σ → List β → Prop
  | done {s : σ} : current s = none → Visits current next s []
  | more {s s' : σ} {x : β} {l : List β} : current s = some x → next s = .ok s' →
      Visits current next s' l → Visits current next s (x :: l)

/-- The list that is left is known in every state that meets the invariant, and a move
takes its first member off. -/
theorem visits_rest (Inv : σ → Prop) (rest : σ → List β)
    (hend : ∀ s, Inv s → rest s = [] → current s = none)
    (hstep : ∀ s x l, Inv s → rest s = x :: l →
      current s = some x ∧ ∃ s', next s = .ok s' ∧ Inv s' ∧ rest s' = l)
    (hs : Inv s) : Visits current next s (rest s) := by
  induction hl : rest s generalizing s with
  | nil => exact .done (hend s hs hl)
  | cons x l ih =>
    rcases hstep s x l hs hl with ⟨hx, s', hnext, hs', hl'⟩
    exact .more hx hnext (ih hs' hl')

namespace Visits

theorem unique (h : Visits current next s l) (h' : Visits current next s l') : l = l' := by
  induction h generalizing l' with
  | done hx =>
    cases h' with
    | done _ => rfl
    | more hx' _ _ =>
      rw [hx] at hx'
      cases hx'
  | more hx hs _ ih =>
    cases h' with
    | done hx' =>
      rw [hx] at hx'
      cases hx'
    | more hx' hs' hl' =>
      rw [hx] at hx'
      rw [hs] at hs'
      cases hx'
      cases hs'
      rw [ih hl']

/-- What every move keeps holds at the end, which is reached. -/
theorem reaches_end (h : Visits current next s l) (Inv : σ → Prop) (hs : Inv s)
    (hstep : ∀ s s', Inv s → next s = .ok s' → Inv s') : ∃ s', Inv s' ∧ current s' = none := by
  induction h with
  | done hx => exact ⟨_, hs, hx⟩
  | more _ hnext _ ih => exact ih (hstep _ _ hs hnext)

end Visits

end SciDB.Iteration
