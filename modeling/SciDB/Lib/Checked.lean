import Mathlib

/-!
# Checked execution

Code that tests a condition and raises an error when it fails is written here in
continuation form: `require p fault k` continues with `k` when `p` holds.  The
lemmas say how a chain of such tests succeeds, so that a proof can pass one test
at a time.
-/

namespace SciDB

universe u v

variable {ε : Type u} {α β : Type v} {p : Prop}

/-- Continue with `k` when `p` holds and raise `fault` otherwise. -/
def require (p : Prop) [Decidable p] (fault : ε) (k : Except ε α) : Except ε α :=
  if p then k else .error fault

theorem require_pos [Decidable p] (h : p) (fault : ε) (k : Except ε α) : require p fault k = k :=
  if_pos h

theorem require_neg [Decidable p] (h : ¬ p) (fault : ε) (k : Except ε α) :
    require p fault k = .error fault :=
  if_neg h

/-- A checked continuation succeeds exactly when its test and the rest do. -/
theorem require_eq_ok [Decidable p] {fault : ε} {k : Except ε α} {a : α} :
    require p fault k = .ok a ↔ p ∧ k = .ok a := by
  unfold require
  split <;> simp_all

variable {f : α → Except ε β} {x : Except ε α} {e : ε}

/-- A sequenced computation succeeds exactly when both halves do. -/
theorem bind_eq_ok {b : β} : (x >>= f) = .ok b ↔ ∃ a, x = .ok a ∧ f a = .ok b := by
  cases x with
  | error e =>
    simp only [reduceCtorEq, false_and, exists_false, iff_false]
    intro h
    cases h
  | ok a =>
    simp only [Except.ok.injEq, exists_eq_left']
    rfl

/-- A sequenced computation fails exactly when one of its halves does. -/
theorem bind_eq_error : (x >>= f) = .error e ↔ x = .error e ∨ ∃ a, x = .ok a ∧ f a = .error e := by
  cases x with
  | error e' =>
    simp only [reduceCtorEq, false_and, exists_false, or_false, Except.error.injEq]
    exact ⟨fun h => Except.error.inj h, fun h => congrArg Except.error h⟩
  | ok a =>
    simp only [reduceCtorEq, Except.ok.injEq, exists_eq_left', false_or]
    rfl

theorem bind_ne_error (hx : x ≠ .error e) (hf : ∀ a, f a ≠ .error e) :
    (x >>= f) ≠ .error e := fun h =>
  (bind_eq_error.mp h).elim hx fun ⟨a, _, ha⟩ => hf a ha

end SciDB
