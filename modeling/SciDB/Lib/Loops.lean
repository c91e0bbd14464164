import Mathlib

/-!
# Loops

Main results:

- Theorem {lit}`foldl_collects`: what a loop over a list has collected in the end.
-/

namespace SciDB.Loops

variable {σ τ : Type*}

/-- A loop over a list that collects something in each round. -/
theorem foldl_collects {f : σ → τ → σ} (Has : σ → Prop) (Adds : τ → Prop)
    (h : ∀ s x, Has (f s x) ↔ Has s ∨ Adds x) (l : List τ) (s : σ) :
    Has (l.foldl f s) ↔ Has s ∨ ∃ x ∈ l, Adds x := by
  induction l generalizing s with
  | nil => simp
  | cons x l ih => rw [List.foldl_cons, ih, h, or_assoc, List.exists_mem_cons_iff]

end SciDB.Loops
