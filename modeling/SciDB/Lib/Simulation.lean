import SciDB.Lib.Runs

/-!
# Simulation between two systems

A relation between the states of two systems that every step keeps is kept by
every run, and both runs succeed.  Systems that hand out numbered handles keep a
table of them; two tables correspond entry by entry.

Main results:

- Theorem {lit}`runM_simulates`: step by step simulation gives simulation of runs.
- Theorems {lit}`forall₂_getElem?`, {lit}`forall₂_mem`, {lit}`forall₂_concat` and
  {lit}`forall₂_set`: reading and changing corresponding tables.
-/

namespace SciDB.Simulation

open Runs List

section Runs

variable {σ τ ε φ : Type*} {step : σ → ε → Except φ σ} {step' : τ → ε → Except φ τ}
  {R : σ → τ → Prop} {Ok : σ → ε → Prop}

/-- If every step that meets the condition succeeds on both sides and keeps the
relation, so does every run whose steps all meet it. -/
theorem runM_simulates
    (hstep : ∀ s t e, R s t → Ok s e → ∃ s' t', step s e = .ok s' ∧ step' t e = .ok t' ∧ R s' t')
    {s : σ} {t : τ} (h : R s t) {events : List ε} (hok : Along step Ok s events) :
    ∃ s' t', runM step s events = .ok s' ∧ runM step' t events = .ok t' ∧ R s' t' := by
  induction events generalizing s t with
  | nil => exact ⟨s, t, rfl, rfl, h⟩
  | cons e events ih =>
    rcases hstep s t e h hok.1 with ⟨s₁, t₁, hs, ht, h₁⟩
    rcases ih h₁ (hok.2 s₁ hs) with ⟨s', t', hs', ht', h'⟩
    refine ⟨s', t', ?_, ?_, h'⟩
    · rw [runM, hs]
      exact hs'
    · rw [runM, ht]
      exact ht'

end Runs

section Tables

variable {α β : Type*} {R : α → β → Prop} {l : List α} {l' : List β} {x : α} {y : β}

variable (h : List.Forall₂ R l l')

include h

theorem forall₂_getElem? {i : Nat} (hx : l[i]? = some x) : ∃ y, l'[i]? = some y ∧ R x y := by
  induction h generalizing i with
  | nil => simp at hx
  | cons hr hrest ih =>
    cases i with
    | zero =>
      rw [getElem?_cons_zero, Option.some.injEq] at hx
      exact ⟨_, rfl, hx ▸ hr⟩
    | succ i => exact ih hx

theorem forall₂_mem (hy : y ∈ l') : ∃ x ∈ l, R x y := by
  rcases mem_iff_getElem?.mp hy with ⟨i, hi⟩
  rcases forall₂_getElem? h.flip hi with ⟨x, hx, hr⟩
  exact ⟨x, mem_of_getElem? hx, hr⟩

theorem forall₂_concat (hxy : R x y) : List.Forall₂ R (l ++ [x]) (l' ++ [y]) :=
  rel_append h (List.Forall₂.cons hxy List.Forall₂.nil)

theorem forall₂_set (hxy : R x y) (i : Nat) : List.Forall₂ R (l.set i x) (l'.set i y) := by
  induction h generalizing i with
  | nil => exact List.Forall₂.nil
  | cons hr hrest ih =>
    cases i with
    | zero => exact List.Forall₂.cons hxy hrest
    | succ i => exact List.Forall₂.cons hr (ih i)

end Tables

end SciDB.Simulation
