import Mathlib

/-!
# Enumerations and odometers

A fallible successor function `next` enumerates a list when calling it again and
again yields the members of the list and then reports the end.  An odometer
combines successor functions of single digits into one for digit strings: the
last digit turns fastest and a digit that runs out is reset and carries into the
one before it.

Main results:

- Theorem {lit}`Enumerates.filter_search`: looking for the next member that passes a
  test enumerates the members that pass it.
- Theorem {lit}`advance_enumerates`: the odometer enumerates the digit strings in
  row-major order.
- Theorem {lit}`digits_enumerate`: conversely, an odometer that reaches its end
  has digits that all reach theirs.
- Theorems {lit}`advance_later` and {lit}`digits_enumerate_later`: the same from any
  setting.
- Theorem {lit}`advance_rank`: every turn of the odometer lowers its rank.
-/

namespace SciDB.Odometer

open List

universe u

variable {ε α : Type u} {ls l : List (List α)} {r : Except ε (Option α)} {x : α}

/-! ## Enumerations -/

/-- Starting from the answer `r`, repeated calls of `next` produce exactly the
list and end without error. -/
inductive Enumerates (next : α → Except ε (Option α)) : Except ε (Option α) → List α → Prop
  | done : Enumerates next (.ok none) []
  | more {x : α} {l : List α} : Enumerates next (next x) l →
      Enumerates next (.ok (some x)) (x :: l)

section

variable {next : α → Except ε (Option α)} {r : Except ε (Option α)} {x : α} {l : List α}

theorem enumerates_nil : Enumerates next r [] ↔ r = .ok none := by
  constructor
  · intro h
    cases h
    rfl
  · rintro rfl
    exact .done

theorem enumerates_cons :
    Enumerates next r (x :: l) ↔ r = .ok (some x) ∧ Enumerates next (next x) l := by
  constructor
  · intro h
    cases h with
    | more h => exact ⟨rfl, h⟩
  · rintro ⟨rfl, h⟩
    exact .more h

end

/-- The `search` calls `next` until the test accepts. -/
def IsSearch (next : α → Except ε (Option α)) (test : α → Except ε Bool)
    (search : α → Except ε (Option α)) : Prop :=
  ∀ x, search x =
    match next x with
    | .error e => .error e
    | .ok none => .ok none
    | .ok (some y) =>
      match test y with
      | .error e => .error e
      | .ok true => .ok (some y)
      | .ok false => search y

/-- How a search that does not fail has gone on. -/
theorem IsSearch.cases {next search : α → Except ε (Option α)} {test : α → Except ε Bool}
    (hsearch : IsSearch next test search) {o : Option α} (h : search x = .ok o) :
    (next x = .ok none ∧ o = none) ∨ ∃ y, next x = .ok (some y) ∧
      ((test y = .ok true ∧ o = some y) ∨ (test y = .ok false ∧ search y = .ok o)) := by
  rw [hsearch] at h
  split at h
  · cases h
  · rename_i hx
    cases h
    exact .inl ⟨hx, rfl⟩
  · rename_i y hx
    refine .inr ⟨y, hx, ?_⟩
    split at h
    · cases h
    · rename_i hy
      cases h
      exact .inl ⟨hy, rfl⟩
    · rename_i hy
      exact .inr ⟨hy, h⟩

namespace Enumerates

variable {next search : α → Except ε (Option α)} {test : α → Except ε Bool}
  {r : Except ε (Option α)} {l l' : List α}

section

variable (h : Enumerates next r l)

include h

/-- From every member on, the successor function enumerates further members. -/
theorem of_mem (hx : x ∈ l) : ∃ l', (∀ y ∈ l', y ∈ l) ∧ Enumerates next (next x) l' := by
  induction h with
  | done => cases hx
  | @more y l h ih =>
    rcases mem_cons.mp hx with rfl | hx
    · exact ⟨l, fun z hz => mem_cons_of_mem x hz, h⟩
    · rcases ih hx with ⟨l', hsub, hl'⟩
      exact ⟨l', fun z hz => mem_cons_of_mem y (hsub z hz), hl'⟩

/-- An enumeration has only one list. -/
theorem unique (h' : Enumerates next r l') : l = l' := by
  induction h generalizing l' with
  | done =>
    cases h'
    rfl
  | more _ ih =>
    cases h' with
    | more h' => rw [ih h']

theorem exists_ok : ∃ o, r = .ok o := by
  cases h with
  | done => exact ⟨none, rfl⟩
  | more _ => exact ⟨_, rfl⟩

/-- A successor function that agrees on every member enumerates the same. -/
theorem congr (search : α → Except ε (Option α)) (hagree : ∀ x ∈ l, search x = next x) :
    Enumerates search r l := by
  induction h with
  | done => exact .done
  | @more y l _ ih =>
    refine .more ?_
    rw [hagree y mem_cons_self]
    exact ih fun x hx => hagree x (mem_cons_of_mem y hx)

end

/-- A search whose test never fails on the members enumerates those it accepts. -/
theorem filter_search (hsearch : IsSearch next test search) (accept : α → Bool)
    (h : Enumerates next (next x) l) (htest : ∀ y ∈ l, test y = .ok (accept y)) :
    Enumerates search (search x) (l.filter accept) := by
  induction l generalizing x with
  | nil =>
    rw [hsearch, enumerates_nil.mp h]
    exact .done
  | cons y l ih =>
    obtain ⟨hx, hy⟩ := enumerates_cons.mp h
    have hrest := ih hy fun z hz => htest z (mem_cons_of_mem y hz)
    rw [hsearch, hx]
    simp only [htest y mem_cons_self]
    cases haccept : accept y with
    | true =>
      simp only [filter_cons, haccept]
      exact .more hrest
    | false => simpa [haccept] using hrest

/-- If a search enumerates anything at all, the underlying successor function
does: the search has to pass every member. -/
theorem of_search (hsearch : IsSearch next test search) {rank : α → Nat}
    (hrank : ∀ {x y}, next x = .ok (some y) → rank y < rank x)
    (h : Enumerates search (search x) l') : ∃ l, Enumerates next (next x) l := by
  induction hn : rank x using Nat.strong_induction_on generalizing x l' with
  | _ n ih =>
    obtain ⟨o, ho⟩ := h.exists_ok
    rcases hsearch.cases ho with ⟨hx, -⟩ | ⟨y, hx, hy⟩
    · exact ⟨[], hx ▸ .done⟩
    · have hy : ∃ l'', Enumerates search (search y) l'' := by
        rcases hy with ⟨-, rfl⟩ | ⟨-, hy⟩
        · exact ⟨l'.tail, by rw [ho] at h; cases h; assumption⟩
        · exact ⟨l', by rwa [hy, ← ho]⟩
      obtain ⟨l'', hl''⟩ := hy
      obtain ⟨l, hl⟩ := ih _ (hn ▸ hrank hx) hl'' rfl
      exact ⟨y :: l, hx ▸ .more hl⟩

end Enumerates

section

variable {next : α → Except ε (Option α)} {f : Nat → α} {n : Nat} {x : α} (hx : f 0 = x)
  (hnext : ∀ k < n, next (f k) = .ok (some (f (k + 1))))

include hx hnext

/-- A sequence is enumerated from its first member on. -/
theorem enumerates_range (hend : next (f n) = .ok none) :
    Enumerates next (next x) ((List.range n).map fun k => f (k + 1)) := by
  subst hx
  induction n generalizing f with
  | zero =>
    rw [hend]
    exact .done
  | succ n ih =>
    rw [hnext 0 (Nat.succ_pos n), range_succ_eq_map, map_cons, map_map]
    exact .more (ih (fun k hk => hnext (k + 1) (Nat.succ_lt_succ hk)) hend)

/-- An enumeration that reaches its end has passed every member of the sequence. -/
theorem Enumerates.passes_range {l : List α} (h : Enumerates next (next x) l) :
    ∃ o, next (f n) = .ok o := by
  subst hx
  induction n generalizing f l with
  | zero => exact h.exists_ok
  | succ n ih =>
    rw [hnext 0 (Nat.succ_pos n)] at h
    cases h with
    | more h => exact ih (fun k hk => hnext (k + 1) (Nat.succ_lt_succ hk)) h

end

/-! ## Odometers -/

/-- A digit: its first value, its successor function and a rank that every
successor lowers. -/
structure Digit (ε α : Type u) where
  first : α
  next : α → Except ε (Option α)
  rank : α → Nat
  rank_lt : ∀ {x y}, next x = .ok (some y) → rank y < rank x

/-- Turn the odometer: advance the last digit; a digit that runs out is reset
and the digit before it is advanced.  There is no result once the first digit
runs out. -/
def advance : List (Digit ε α) → List α → Except ε (Option (List α))
  | [], _ => .ok none
  | _ :: _, [] => .ok none
  | d :: ds, x :: xs =>
    match advance ds xs with
    | .error e => .error e
    | .ok (some ys) => .ok (some (x :: ys))
    | .ok none => (d.next x).map (Option.map (· :: ds.map Digit.first))

/-- The digit strings over given digit values, the last digit turning fastest. -/
def rowMajor : List (List α) → List (List α)
  | [] => [[]]
  | l :: ls => l.flatMap fun x => (rowMajor ls).map (x :: ·)

/-- Number of settings an odometer has at most. -/
def size : List (Digit ε α) → Nat
  | [] => 1
  | d :: ds => (d.rank d.first + 1) * size ds

/-- Number of turns an odometer can take at most. -/
def rank : List (Digit ε α) → List α → Nat
  | [], _ => 0
  | _ :: _, [] => 0
  | d :: ds, x :: xs => d.rank x * size ds + rank ds xs

section

variable {d : Digit ε α} {ds : List (Digit ε α)} {x : α} {xs ys : List α} {ls : List (List α)}

/-- While the later digits turn, the first one stays; then it is advanced. -/
theorem enumerates_inner {g rest : List (List α)} (h : Enumerates (advance ds) (advance ds xs) g)
    (hrest : Enumerates (advance (d :: ds))
      ((d.next x).map (Option.map (· :: ds.map Digit.first))) rest) :
    Enumerates (advance (d :: ds)) (advance (d :: ds) (x :: xs)) (g.map (x :: ·) ++ rest) := by
  induction g generalizing xs with
  | nil =>
    rw [advance, enumerates_nil.mp h]
    exact hrest
  | cons ys g ih =>
    obtain ⟨hys, h⟩ := enumerates_cons.mp h
    rw [advance, hys]
    exact .more (ih h)

/-- The first digit's own enumeration, with a full turn of the others at each value. -/
theorem enumerates_outer {l : List α}
    (hls : Enumerates (advance ds) (.ok (some (ds.map Digit.first))) (rowMajor ls))
    (h : Enumerates d.next r l) :
    Enumerates (advance (d :: ds)) (r.map (Option.map (· :: ds.map Digit.first)))
      (l.flatMap fun x => (rowMajor ls).map (x :: ·)) := by
  induction h with
  | done => exact .done
  | more _ ih =>
    generalize rowMajor ls = g at hls ih ⊢
    cases hls with
    | more hls => exact .more (enumerates_inner hls ih)

/-- The odometer enumerates the digit strings in row-major order. -/
theorem advance_enumerates
    (h : List.Forall₂ (fun (d : Digit ε α) l => Enumerates d.next (.ok (some d.first)) l) ds ls) :
    Enumerates (advance ds) (.ok (some (ds.map Digit.first))) (rowMajor ls) := by
  induction h with
  | nil => exact .more .done
  | cons hd _ ih => exact enumerates_outer ih hd

/-- An odometer that enumerates anything from a setting does so for its later
digits, and for its first digit once the later ones have run out. -/
theorem enumerates_split
    (h : Enumerates (advance (d :: ds)) (advance (d :: ds) (x :: xs)) l) :
    (∃ l₁, Enumerates (advance ds) (advance ds xs) l₁) ∧
      ∃ l₂, l₂.length ≤ l.length ∧ Enumerates (advance (d :: ds))
        ((d.next x).map (Option.map (· :: ds.map Digit.first))) l₂ := by
  induction hlen : l.length using Nat.strong_induction_on generalizing xs l with
  | _ n ih =>
    rw [advance] at h
    cases hn : advance ds xs with
    | error e =>
      rw [hn] at h
      cases h
    | ok o =>
      rw [hn] at h
      cases o with
      | none => exact ⟨⟨[], .done⟩, l, hlen.le, h⟩
      | some ys =>
        cases h with
        | more h =>
          rcases ih _ (by simp [← hlen]) h rfl with ⟨⟨l₁, h₁⟩, l₂, hle, h₂⟩
          exact ⟨⟨ys :: l₁, .more h₁⟩, l₂, hlen ▸ Nat.le_succ_of_le hle, h₂⟩

theorem enumerates_digit
    (h : Enumerates (advance (d :: ds)) (r.map (Option.map (· :: ds.map Digit.first))) l) :
    ∃ l', Enumerates d.next r l' := by
  induction hn : l.length using Nat.strong_induction_on generalizing r l with
  | _ n ih =>
    cases r with
    | error e => cases h
    | ok o =>
      cases o with
      | none => exact ⟨[], .done⟩
      | some x =>
        cases h with
        | more h =>
          rcases (enumerates_split h).2 with ⟨l₂, hlen, h₂⟩
          rcases ih _ (hn ▸ Nat.lt_succ_of_le hlen) h₂ rfl with ⟨l', hl'⟩
          exact ⟨x :: l', .more hl'⟩

/-- An odometer that enumerates its settings has digits that all do. -/
theorem digits_enumerate
    (h : Enumerates (advance ds) (.ok (some (ds.map Digit.first))) l) :
    ∀ d ∈ ds, ∃ l', Enumerates d.next (.ok (some d.first)) l' := by
  induction ds generalizing l with
  | nil => simp
  | cons d ds ih =>
    intro d' hd'
    rcases mem_cons.mp hd' with rfl | hd'
    · exact enumerates_digit h
    · cases h with
      | more h =>
        rcases (enumerates_split h).1 with ⟨l₁, h₁⟩
        exact ih (.more h₁) d' hd'

/-! ## Starting from any setting -/

section

variable {ι : Type*} {digit : ι → Digit ε α} {tail : ι → α → List α} {values : ι → List α}
  {is : List ι}

/-- The settings behind a given one: `tail i x` are the values of a digit behind `x`,
and `values i` all its values. -/
def later (tail : ι → α → List α) (values : ι → List α) : List ι → List α → List (List α)
  | i :: is, x :: xs =>
    (later tail values is xs).map (x :: ·) ++
      (tail i x).flatMap fun y => (rowMajor (is.map values)).map (y :: ·)
  | _, _ => []

/-- The odometer goes on from any setting. -/
theorem advance_later
    (hfirst : ∀ i ∈ is, Enumerates (digit i).next (.ok (some (digit i).first)) (values i))
    (htail : List.Forall₂
      (fun i x => Enumerates (digit i).next ((digit i).next x) (tail i x)) is xs) :
    Enumerates (advance (is.map digit)) (advance (is.map digit) xs) (later tail values is xs) := by
  induction htail with
  | nil => exact .done
  | @cons i x is xs hx _ ih =>
    rw [forall_mem_cons] at hfirst
    have hrest := ih hfirst.2
    have hall : Enumerates (advance (is.map digit))
        (.ok (some ((is.map digit).map Digit.first))) (rowMajor (is.map values)) := by
      apply advance_enumerates
      rw [forall₂_map_left_iff, forall₂_map_right_iff, forall₂_same]
      exact hfirst.2
    exact enumerates_inner hrest (enumerates_outer hall hx)

/-- An odometer that reaches its end from a setting has digits that all do. -/
theorem digits_enumerate_later (hlen : is.length = xs.length)
    (h : Enumerates (advance (is.map digit)) (advance (is.map digit) xs) l) :
    List.Forall₂ (fun i x => ∃ t, Enumerates (digit i).next ((digit i).next x) t) is xs := by
  induction is generalizing xs l with
  | nil =>
    cases xs with
    | nil => exact .nil
    | cons x xs => cases hlen
  | cons i is ih =>
    cases xs with
    | nil => cases hlen
    | cons x xs =>
      have hlen' : is.length = xs.length := Nat.succ.inj hlen
      rcases enumerates_split h with ⟨⟨l₁, h₁⟩, l₂, -, h₂⟩
      exact .cons (enumerates_digit h₂) (ih hlen' h₁)

end

theorem map_eq_ok_some {β : Type u} {r : Except ε (Option α)} {f : α → β} {b : β}
    (h : r.map (Option.map f) = .ok (some b)) : ∃ a, r = .ok (some a) ∧ f a = b := by
  rcases r with e | (_ | a)
  · cases h
  · cases h
  · cases h
    exact ⟨a, rfl, rfl⟩

theorem advance_ne_nil (h : advance ds xs = .ok (some ys)) : ys ≠ [] := by
  rintro rfl
  cases ds with
  | nil => cases h
  | cons d ds =>
    cases xs with
    | nil => cases h
    | cons x xs =>
      rw [advance] at h
      split at h
      · cases h
      · cases h
      · rcases map_eq_ok_some h with ⟨y, -, hy⟩
        cases hy

theorem rank_first_lt (ds : List (Digit ε α)) : rank ds (ds.map Digit.first) < size ds := by
  induction ds with
  | nil => simp [rank, size]
  | cons d ds ih =>
    simp only [map_cons, rank, size, Nat.add_mul]
    omega

/-- Advancing the first digit outweighs resetting all others. -/
theorem rank_carry {y : α} (h : d.next x = .ok (some y)) (xs : List α) :
    rank (d :: ds) (y :: ds.map Digit.first) < rank (d :: ds) (x :: xs) := by
  have hfirst := rank_first_lt ds
  have hmul : (d.rank y + 1) * size ds ≤ d.rank x * size ds :=
    Nat.mul_le_mul_right _ (d.rank_lt h)
  rw [Nat.add_mul] at hmul
  simp only [rank]
  omega

/-- Every turn lowers the rank. -/
theorem advance_rank (h : advance ds xs = .ok (some ys)) : rank ds ys < rank ds xs := by
  induction ds generalizing xs ys with
  | nil => cases h
  | cons d ds ih =>
    cases xs with
    | nil => cases h
    | cons x xs =>
      rw [advance] at h
      split at h
      · cases h
      · rename_i hn
        cases h
        exact Nat.add_lt_add_left (ih hn) _
      · rcases map_eq_ok_some h with ⟨y, hd, rfl⟩
        exact rank_carry hd xs

end

/-! ## The row-major order -/

theorem mem_rowMajor {xs : List α} : xs ∈ rowMajor ls ↔ List.Forall₂ (fun l x => x ∈ l) ls xs := by
  induction ls generalizing xs with
  | nil => simp [rowMajor]
  | cons l ls ih =>
    simp only [rowMajor, mem_flatMap, mem_map, ih]
    constructor
    · rintro ⟨x, hx, ys, hys, rfl⟩
      exact .cons hx hys
    · intro h
      cases h with
      | cons hx hys => exact ⟨_, hx, _, hys, rfl⟩

/-- Increasing digits give lexicographically increasing digit strings. -/
theorem rowMajor_pairwise [LT α] (h : ∀ l ∈ ls, l.Pairwise (· < ·)) :
    (rowMajor ls).Pairwise (· < ·) := by
  induction ls with
  | nil => simp [rowMajor]
  | cons l ls ih =>
    have htail := ih fun l' hl' => h l' (mem_cons_of_mem l hl')
    rw [rowMajor, pairwise_flatMap]
    constructor
    · intro x _
      rw [pairwise_map]
      exact htail.imp fun hlt => List.Lex.cons hlt
    · refine (h l mem_cons_self).imp ?_
      intro x y hxy xs hxs ys hys
      obtain ⟨xs', _, rfl⟩ := mem_map.mp hxs
      obtain ⟨ys', _, rfl⟩ := mem_map.mp hys
      exact List.Lex.rel hxy

end SciDB.Odometer
