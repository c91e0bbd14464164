import Mathlib

/-!
# Runs of a step function

A system that takes one event after another is a step function folded over a
list of events.  The induction over runs is done here once: a property that one
step preserves holds after every run, together with any preorder that relates
the states before and after one step.
-/

namespace SciDB.Runs

open List

variable {σ ε : Type*} {step : σ → ε → σ} {Inv : σ → Prop} {R : σ → σ → Prop} {s : σ}

/-- The state after a list of events. -/
def run (step : σ → ε → σ) (s : σ) (events : List ε) : σ :=
  events.foldl step s

/-- What one step keeps, a whole run keeps. -/
theorem run_invariant (hstep : ∀ s e, Inv s → Inv (step s e)) (hs : Inv s) (events : List ε) :
    Inv (run step s events) := by
  induction events generalizing s with
  | nil => exact hs
  | cons e events ih => exact ih (hstep s e hs)

/-- An invariant and a preorder that one step keeps are kept by a whole run. -/
theorem run_keeps [Std.Refl R] [IsTrans σ R]
    (hstep : ∀ s e, Inv s → Inv (step s e) ∧ R s (step s e)) (hs : Inv s) (events : List ε) :
    Inv (run step s events) ∧ R s (run step s events) := by
  induction events generalizing s with
  | nil => exact ⟨hs, refl s⟩
  | cons e events ih =>
    obtain ⟨hinv, hrel⟩ := hstep s e hs
    obtain ⟨hinv', hrel'⟩ := ih hinv
    exact ⟨hinv', IsTrans.trans _ _ _ hrel hrel'⟩

/-- What holds of every entry of a log holds when one more entry is written. -/
theorem forall_mem_concat {α : Type*} {p : α → Prop} {l : List α} {x : α} (hl : ∀ y ∈ l, p y)
    (hx : p x) : ∀ y ∈ l ++ [x], p y :=
  forall_mem_append.mpr ⟨hl, forall_mem_singleton.mpr hx⟩

/-- A condition holds at every step of a run. -/
def Throughout (step : σ → ε → σ) (P : σ → ε → Prop) : σ → List ε → Prop
  | _, [] => True
  | s, e :: events => P s e ∧ Throughout step P (step s e) events

/-- Two conditions that agree where an invariant holds agree on runs, if the second one
keeps the invariant. -/
theorem throughout_iff {P Ok : σ → ε → Prop} (hstep : ∀ s e, Inv s → Ok s e → Inv (step s e))
    (hiff : ∀ s e, Inv s → (P s e ↔ Ok s e)) (hs : Inv s) {events : List ε} :
    Throughout step P s events ↔ Throughout step Ok s events := by
  induction events generalizing s with
  | nil => exact .rfl
  | cons e events ih =>
    rw [Throughout, hiff s e hs]
    exact and_congr_right fun he => ih (hstep s e hs he)

/-! ## Steps that can fail -/

section

variable {φ : Type*} {step : σ → ε → Except φ σ} {Ok : σ → ε → Prop} {events : List ε} {s s' : σ}

/-- The state after a list of events, unless one of them fails. -/
def runM (step : σ → ε → Except φ σ) : σ → List ε → Except φ σ
  | s, [] => .ok s
  | s, e :: events =>
    match step s e with
    | .error f => .error f
    | .ok s' => runM step s' events

theorem runM_concat (h : runM step s events = .ok s') (e : ε) :
    runM step s (events ++ [e]) = step s' e := by
  induction events generalizing s with
  | nil =>
    have hs : s = s' := Except.ok.inj h
    rw [nil_append, runM, hs]
    cases step s' e <;> rfl
  | cons e' events ih =>
    rw [runM] at h
    split at h
    · cases h
    · rename_i hs
      rw [cons_append, runM, hs]
      exact ih h

/-- What every step that succeeds keeps holds after every run that succeeds. -/
theorem runM_preserves (hstep : ∀ s e s', Inv s → step s e = .ok s' → Inv s') (hs : Inv s)
    (h : runM step s events = .ok s') : Inv s' := by
  induction events generalizing s with
  | nil =>
    cases Except.ok.inj h
    exact hs
  | cons e events ih =>
    rw [runM] at h
    split at h
    · cases h
    · rename_i s₁ he
      exact ih (hstep s e s₁ hs he) h

/-- A condition holds at every step of a run. -/
def Along (step : σ → ε → Except φ σ) (Ok : σ → ε → Prop) : σ → List ε → Prop
  | _, [] => True
  | s, e :: events => Ok s e ∧ ∀ s', step s e = .ok s' → Along step Ok s' events

/-- Whether a condition holds along a run can be found out by running it. -/
instance decidableAlong [∀ s e, Decidable (Ok s e)] :
    ∀ s events, Decidable (Along step Ok s events)
  | _, [] => isTrue trivial
  | s, e :: events =>
    match h : step s e with
    | .error _ => decidable_of_iff (Ok s e) (by simp [Along, h])
    | .ok s' =>
      have := decidableAlong s' events
      decidable_of_iff (Ok s e ∧ Along step Ok s' events) (by simp [Along, h])

/-- If every step that meets the condition succeeds and keeps the invariant, so
does every run whose steps all meet it. -/
theorem runM_keeps (hstep : ∀ s e, Inv s → Ok s e → ∃ s', step s e = .ok s' ∧ Inv s') (hs : Inv s)
    (h : Along step Ok s events) :
    ∃ s', runM step s events = .ok s' ∧ Inv s' := by
  induction events generalizing s with
  | nil => exact ⟨s, rfl, hs⟩
  | cons e events ih =>
    rcases hstep s e hs h.1 with ⟨s₁, hs₁, hinv⟩
    rcases ih hinv (h.2 s₁ hs₁) with ⟨s', hs', hinv'⟩
    refine ⟨s', ?_, hinv'⟩
    rw [runM, hs₁]
    exact hs'

end

end SciDB.Runs
