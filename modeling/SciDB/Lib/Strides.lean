import Mathlib

/-!
# Strides

Every `n`-th member of a list, and how the `n` lists that start one after another
share out the whole.

Main results:

- Theorem {lit}`strides_perm`: each member of the list is in one of the strides.
-/

namespace SciDB.Strides

open List

variable {α : Type*}

/-- Take one member and skip the next `n - 1`. -/
def stride (n : Nat) : List α → List α
  | [] => []
  | x :: l => x :: stride n (l.drop (n - 1))
termination_by l => l.length
decreasing_by
  simp only [length_cons, length_drop]
  omega

@[simp]
theorem stride_nil (n : Nat) : stride n ([] : List α) = [] := by
  rw [stride]

theorem stride_cons (n : Nat) (x : α) (l : List α) :
    stride n (x :: l) = x :: stride n (l.drop (n - 1)) := by
  rw [stride]

/-- The strides that start at the first `n` members share out the list. -/
theorem strides_perm {n : Nat} (hn : 0 < n) (l : List α) :
    ((List.range n).flatMap fun i => stride n (l.drop i)).Perm l := by
  obtain ⟨n, rfl⟩ : ∃ k, n = k + 1 := ⟨n - 1, by omega⟩
  induction l with
  | nil => simp
  | cons x l ih =>
    -- the first stride starts with `x` and goes on where the last one of the tail starts
    rw [range_succ, flatMap_append, flatMap_singleton] at ih
    rw [range_succ_eq_map, flatMap_cons, flatMap_map, drop_zero, stride_cons]
    exact (perm_append_comm.trans ih).cons x

end SciDB.Strides
