import Mathlib

/-!
# Collapsing repeats

The members of a list that differ from the one before them.  When a list is worked off in
pieces, what a piece contributes depends on the last member before it.

Main results:

- Theorem {lit}`fresh_append`: the contribution of the second of two pieces.
- Theorem {lit}`fresh_eq`: what a piece contributes, from its own repeats and its first member.
-/

namespace SciDB.Collapse

open List

variable {α : Type*} [DecidableEq α] {last : Option α} {xs ys : List α}

/-- The members that differ from the one before them, after `last`. -/
def fresh (last : Option α) : List α → List α
  | [] => []
  | x :: xs => if last = some x then fresh last xs else x :: fresh (some x) xs

/-- The last member so far. -/
def latest (last : Option α) (xs : List α) : Option α :=
  xs.getLast?.or last

omit [DecidableEq α] in
theorem latest_cons (x : α) : latest last (x :: xs) = latest (some x) xs := by
  cases xs with
  | nil => rfl
  | cons y ys => rw [latest, latest, getLast?_cons_cons,
    getLast?_eq_some_getLast (by simp), Option.some_or, Option.some_or]

theorem fresh_append : fresh last (xs ++ ys) = fresh last xs ++ fresh (latest last xs) ys := by
  induction xs generalizing last with
  | nil => rfl
  | cons x xs ih =>
    rw [cons_append, fresh, fresh, latest_cons]
    by_cases h : last = some x
    · rw [if_pos h, if_pos h, ih, h]
    · rw [if_neg h, if_neg h, ih, cons_append]

/-- A piece is collapsed on its own, and its first member is left out if it repeats. -/
theorem fresh_eq : fresh last xs =
    if last = xs.head? then (fresh none xs).tail else fresh none xs := by
  cases xs with
  | nil => exact (ite_self _).symm
  | cons x xs =>
    have hnone : fresh none (x :: xs) = x :: fresh (some x) xs := if_neg (by simp)
    rw [head?_cons, hnone, tail_cons, fresh]
    by_cases h : last = some x
    · rw [if_pos h, if_pos h, h]
    · rw [if_neg h, if_neg h]

/-- A piece that contributes nothing does not change the last member. -/
theorem latest_of_fresh_eq_nil (h : fresh last xs = []) : latest last xs = last := by
  induction xs with
  | nil => rfl
  | cons x xs ih =>
    rw [fresh] at h
    by_cases hx : last = some x
    · rw [if_pos hx] at h
      rw [latest_cons, ← hx, ih h]
    · rw [if_neg hx] at h
      cases h

theorem fresh_eq_nil : fresh last xs = [] ↔ ∀ x ∈ xs, last = some x := by
  induction xs with
  | nil => exact iff_of_true rfl (by simp)
  | cons x xs ih =>
    rw [fresh, forall_mem_cons]
    by_cases hx : last = some x
    · rw [if_pos hx, ih, and_iff_right hx]
    · rw [if_neg hx]
      exact iff_of_false (by simp) (fun h => hx h.1)

theorem fresh_some (x : α) : x :: fresh (some x) xs = xs.destutter' (· ≠ ·) x := by
  induction xs generalizing x with
  | nil => rfl
  | cons y xs ih =>
    rw [fresh]
    by_cases h : x = y
    · rw [if_pos (congrArg some h), List.destutter'_cons_neg _ (not_not.mpr h), ih]
    · rw [if_neg (fun heq => h (Option.some.inj heq)), List.destutter'_cons_pos _ h, ih]

theorem fresh_none : fresh none xs = xs.destutter (· ≠ ·) := by
  cases xs with
  | nil => rfl
  | cons x xs => rw [fresh, if_neg (by simp), fresh_some, destutter_cons']

theorem length_fresh_le : (fresh last xs).length ≤ xs.length := by
  induction xs generalizing last with
  | nil => exact le_refl _
  | cons x xs ih =>
    rw [fresh]
    split
    · exact ih.trans (Nat.le_succ _)
    · exact Nat.succ_le_succ ih

end SciDB.Collapse
