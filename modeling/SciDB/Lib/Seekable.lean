import SciDB.Lib.Iteration
import SciDB.Lib.OrderedMap
import SciDB.Lib.Runs

/-!
# Iterators that can be set to a position

An iterator over items with positions moves on, starts again, or is set to a position.
It serves a sorted list of items if after every sequence of calls it goes on from its
current item to the end of the list, and can be set to the positions of the list.

Main results:

- Theorem {lit}`serves_of_rest`: the list that is left in every state decides what an
  iterator serves.
-/

namespace SciDB.Seekable

open Iteration OrderedMap Runs

/-- The calls of an iterator.  `setPosition` says whether it succeeds; reading the current
item may change what the iterator keeps of it. -/
structure Iterator (σ κ α ε : Type*) where
  current : σ → Option (κ × α)
  read : σ → σ
  next : σ → Except ε σ
  restart : σ → σ
  setPosition : κ → σ → Bool × σ

inductive Call (κ : Type*)
  | read
  | next
  | restart
  | setPosition (pos : κ)

variable {σ κ α ε : Type*}

def Iterator.call (I : Iterator σ κ α ε) (s : σ) : Call κ → Except ε σ
  | .read => .ok (I.read s)
  | .next => I.next s
  | .restart => .ok (I.restart s)
  | .setPosition pos => .ok (I.setPosition pos s).2

variable [LinearOrder κ]

/-- After every sequence of calls that succeeds, the iterator serves the items of a list.
A position asks for the item at `round` of it, and has to be `inside` to be answered. -/
structure Serves (I : Iterator σ κ α ε) (start : σ) (items : List (κ × α))
    (valid inside : κ → Prop) (round : κ → κ) : Prop where
  sorted : Sorted items
  visits : Visits I.current I.next start items
  restarts : ∀ calls s, runM I.call start calls = .ok s →
    Visits I.current I.next (I.restart s) items
  goes_on : ∀ calls s e, runM I.call start calls = .ok s → I.current s = some e →
    e ∈ items ∧ Visits I.current I.next s (items.filter fun x => isFrom e.1 x.1)
  finds : ∀ calls s pos, runM I.call start calls = .ok s → valid pos → inside pos →
    round pos ∈ items.map Prod.fst → (I.setPosition pos s).1 = true
  found : ∀ calls s pos, runM I.call start calls = .ok s → valid pos →
    (I.setPosition pos s).1 = true → ∃ x, I.current (I.setPosition pos s).2 = some (round pos, x)
  fails : ∀ calls s pos, runM I.call start calls = .ok s → (I.setPosition pos s).1 = false →
    I.current (I.setPosition pos s).2 = none

/-- In every state that meets the invariant the list that is left is known.  Moving on
takes its first item off, and the other calls leave a tail of the whole list. -/
theorem serves_of_rest {I : Iterator σ κ α ε} {start : σ} {items : List (κ × α)}
    {valid inside : κ → Prop} {round : κ → κ} (Inv : σ → Prop) (rest : σ → List (κ × α))
    (hsorted : Sorted items) (hstart : Inv start ∧ rest start = items)
    (hsuffix : ∀ s, Inv s → rest s <:+ items) (hread : ∀ s, Inv s → Inv (I.read s))
    (hend : ∀ s, Inv s → rest s = [] → I.current s = none ∧ ∀ s', I.next s = .ok s' → Inv s')
    (hstep : ∀ s x l, Inv s → rest s = x :: l →
      I.current s = some x ∧ ∃ s', I.next s = .ok s' ∧ Inv s' ∧ rest s' = l)
    (hrestart : ∀ s, Inv s → Inv (I.restart s) ∧ rest (I.restart s) = items)
    (hset : ∀ s pos, Inv s →
      (∃ s', I.setPosition pos s = (false, s') ∧ Inv s' ∧ rest s' = [] ∧
        (valid pos → inside pos → round pos ∉ items.map Prod.fst)) ∨
      ∃ s', I.setPosition pos s = (true, s') ∧ Inv s' ∧
        (valid pos → ∃ x l, rest s' = (round pos, x) :: l)) :
    Serves I start items valid inside round := by
  have hcall : ∀ s c s', Inv s → I.call s c = .ok s' → Inv s' := by
    intro s c s' hs hc
    cases c with
    | read =>
      cases hc
      exact hread s hs
    | next =>
      cases hl : rest s with
      | nil => exact (hend s hs hl).2 s' hc
      | cons x l =>
        rcases hstep s x l hs hl with ⟨-, s₁, hs₁, hinv, -⟩
        rw [Iterator.call, hs₁] at hc
        cases hc
        exact hinv
    | restart =>
      cases hc
      exact (hrestart s hs).1
    | setPosition pos =>
      cases hc
      rcases hset s pos hs with ⟨s', hs', hinv, -⟩ | ⟨s', hs', hinv, -⟩
      all_goals
        rw [hs']
        exact hinv
  have hreach : ∀ calls s, runM I.call start calls = .ok s → Inv s :=
    fun calls s h => runM_preserves hcall hstart.1 h
  have hvisits : ∀ s, Inv s → Visits I.current I.next s (rest s) := fun s hs =>
    visits_rest Inv rest (fun s hs hl => (hend s hs hl).1) hstep hs
  refine ⟨hsorted, hstart.2 ▸ hvisits start hstart.1, ?_, ?_, ?_, ?_, ?_⟩
  · intro calls s hs
    rcases hrestart s (hreach calls s hs) with ⟨hinv, hrest⟩
    exact hrest ▸ hvisits _ hinv
  · intro calls s e hs he
    have hinv := hreach calls s hs
    cases hl : rest s with
    | nil =>
      rw [(hend s hinv hl).1] at he
      cases he
    | cons x l =>
      have hx := (hstep s x l hinv hl).1
      rw [he, Option.some.injEq] at hx
      have hsuf : (e :: l) <:+ items := by
        rw [hx, ← hl]
        exact hsuffix s hinv
      refine ⟨hsuf.subset List.mem_cons_self, ?_⟩
      rw [hsorted.filter_isFrom hsuf, hx, ← hl]
      exact hvisits s hinv
  · intro calls s pos hs hvalid hinside hmem
    rcases hset s pos (hreach calls s hs) with ⟨-, -, -, -, hnot⟩ | ⟨s', hs', -⟩
    · exact absurd hmem (hnot hvalid hinside)
    · rw [hs']
  · intro calls s pos hs hvalid hok
    rcases hset s pos (hreach calls s hs) with ⟨s', hs', -⟩ | ⟨s', hs', hinv, hfound⟩
    · rw [hs'] at hok
      cases hok
    · rcases hfound hvalid with ⟨x, l, hl⟩
      rw [hs']
      exact ⟨x, (hstep _ _ _ hinv hl).1⟩
  · intro calls s pos hs hok
    rcases hset s pos (hreach calls s hs) with ⟨s', hs', hinv, hnil, -⟩ | ⟨s', hs', -⟩
    · rw [hs']
      exact (hend s' hinv hnil).1
    · rw [hs'] at hok
      cases hok

end SciDB.Seekable
