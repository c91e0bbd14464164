import Mathlib.Tactic.Common

/-!
# Computations that keep their state when they fail

A call that throws leaves behind whatever it had changed so far.  Such a call is a
function from a state to a result, or a fault, and the state it leaves.

Main results:

- Theorems {lit}`bind_ok` and {lit}`bind_error`: how a sequence of calls runs.
- Theorem {lit}`Keeps.bind`: a property that each call keeps, whether it fails or not,
  is kept by their sequence.
-/

namespace SciDB

/-- A call on a state of type `σ` that may fail with a fault of type `φ`. -/
def Attempt (σ φ α : Type) : Type :=
  σ → Except φ α × σ

namespace Attempt

variable {σ φ α β : Type}

instance : Monad (Attempt σ φ) where
  pure a := fun s => (.ok a, s)
  bind x f := fun s =>
    match x s with
    | (.ok a, s') => f a s'
    | (.error e, s') => (.error e, s')

/-- The state. -/
def read : Attempt σ φ σ := fun s => (.ok s, s)

/-- Change the state. -/
def change (f : σ → σ) : Attempt σ φ Unit := fun s => (.ok (), f s)

/-- Throw. -/
def fail (e : φ) : Attempt σ φ α := fun s => (.error e, s)

/-- A computation that does not use the state. -/
def lift (x : Except φ α) : Attempt σ φ α := fun s => (x, s)

variable {x : Attempt σ φ α} {f : α → Attempt σ φ β} {s s' : σ} {a : α} {e : φ}

@[simp]
theorem pure_apply (a : α) (s : σ) : (pure a : Attempt σ φ α) s = (.ok a, s) :=
  rfl

@[simp]
theorem read_apply (s : σ) : (read : Attempt σ φ σ) s = (.ok s, s) :=
  rfl

@[simp]
theorem change_apply (g : σ → σ) (s : σ) : (change g : Attempt σ φ Unit) s = (.ok (), g s) :=
  rfl

theorem bind_ok (h : x s = (.ok a, s')) : (x >>= f) s = f a s' := by
  change (match x s with
    | (.ok a, s') => f a s'
    | (.error e, s') => (.error e, s')) = _
  rw [h]

theorem bind_error (h : x s = (.error e, s')) : (x >>= f) s = (.error e, s') := by
  change (match x s with
    | (.ok a, s') => f a s'
    | (.error e, s') => (.error e, s')) = _
  rw [h]

theorem bind_assoc {γ : Type} (x : Attempt σ φ α) (f : α → Attempt σ φ β)
    (g : β → Attempt σ φ γ) : ((x >>= f) >>= g) = x >>= fun a => f a >>= g := by
  funext s
  cases hrun : x s with
  | mk r s' =>
    cases r with
    | ok a =>
      rw [bind_ok hrun]
      change (match (x >>= f) s with
        | (.ok b, s') => g b s'
        | (.error e, s') => (.error e, s')) = _
      rw [bind_ok hrun]
      rfl
    | error e => rw [bind_error (bind_error hrun), bind_error hrun]

/-- The state does not depend on what is done with the result. -/
theorem snd_bind_pure (g : α → β) : ((x >>= fun a => pure (g a)) s).2 = (x s).2 := by
  cases hrun : x s with
  | mk r s' =>
    cases r with
    | ok a => rw [bind_ok hrun, pure_apply]
    | error e => rw [bind_error hrun]

/-- The call keeps a property of the state, also when it fails. -/
def Keeps (P : σ → Prop) (x : Attempt σ φ α) : Prop :=
  ∀ s, P s → P (x s).2

variable {P : σ → Prop}

theorem Keeps.pure (a : α) : Keeps P (pure a : Attempt σ φ α) :=
  fun _ h => h

theorem Keeps.lift (y : Except φ α) : Keeps P (lift y : Attempt σ φ α) :=
  fun _ h => h

theorem Keeps.bind (hx : Keeps P x) (hf : ∀ a, Keeps P (f a)) : Keeps P (x >>= f) := by
  intro s hs
  have hP := hx s hs
  cases hrun : x s with
  | mk r s' =>
    rw [hrun] at hP
    cases r with
    | ok a =>
      rw [bind_ok hrun]
      exact hf a s' hP
    | error e =>
      rw [bind_error hrun]
      exact hP

end Attempt
end SciDB
