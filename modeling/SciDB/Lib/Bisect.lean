import Mathlib

/-!
# Bisection

A binary search over indices that may stop early.  At each index a test says
whether the answer is further to the right, is the next index, or is not further
right than here.
-/

namespace SciDB.Bisect

universe u

variable {ε : Type u} {test : Nat → Except ε Ordering}

/-- Bisect the indices from `l` up to `r`, in at most `fuel` rounds. -/
def bisect (test : Nat → Except ε Ordering) : (fuel l r : Nat) → Except ε Nat
  | 0, _, r => .ok r
  | fuel + 1, l, r =>
    if l < r then
      let m := (l + r) / 2
      match test m with
      | .error e => .error e
      | .ok .lt => bisect test fuel (m + 1) r
      | .ok .eq => .ok (m + 1)
      | .ok .gt => bisect test fuel l m
    else .ok r

/-- The search finds the index `i` that separates the two kinds of answers. -/
theorem bisect_eq {i l r fuel : Nat} (hl : l ≤ i) (hr : i ≤ r) (hfuel : r - l ≤ fuel)
    (hleft : ∀ m, m < i → test m = .ok .lt ∨ (test m = .ok .eq ∧ m + 1 = i))
    (hright : ∀ m, i ≤ m → m < r → test m = .ok .gt) :
    bisect test fuel l r = .ok i := by
  induction fuel generalizing l r with
  | zero =>
    have : r = i := by omega
    rw [bisect, this]
  | succ fuel ih =>
    rw [bisect]
    by_cases hlr : l < r
    · rw [if_pos hlr]
      by_cases hm : (l + r) / 2 < i
      · rcases hleft _ hm with h | ⟨h, heq⟩
        · simp only [h]
          exact ih (by omega) hr (by omega) hright
        · simp [h, heq]
      · simp only [hright _ (Nat.le_of_not_lt hm) (by omega)]
        exact ih hl (by omega) (by omega) fun m him hmr => hright m him (by omega)
    · rw [if_neg hlr, show r = i by omega]

end SciDB.Bisect
