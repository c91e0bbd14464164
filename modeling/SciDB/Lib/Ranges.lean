import Mathlib

/-!
# Closed index ranges

A list of closed ranges `[first, second]` of natural numbers stands for the set
of indices it covers.  When the ranges are listed in increasing order without
touching an index twice, the number of covered indices is the sum of the widths.
These facts are used to count the indices that are left over and to find the
`k`-th one of them.

Main results:

- Theorem {lit}`card_coveredBelow`: separated ranges inside `[0, n)` cover
  exactly as many indices as their widths add up to.
- Theorem {lit}`separated_insert`: a range that fits into a gap can be put there.
- Theorem {lit}`exists_uncovered_iff`: some index is left over exactly when the
  widths add up to less than `n`.
-/

namespace SciDB.Ranges

open List Finset

/-- A closed range of indices, first and last index. -/
abbrev IndexRange := Nat × Nat

/-- The range contains the index. -/
def Contains (r : IndexRange) (i : Nat) : Prop :=
  r.1 ≤ i ∧ i ≤ r.2

instance (r : IndexRange) (i : Nat) : Decidable (Contains r i) :=
  inferInstanceAs (Decidable (_ ∧ _))

/-- Some range of the list contains the index. -/
def Covers (rs : List IndexRange) (i : Nat) : Prop :=
  ∃ r ∈ rs, Contains r i

instance (rs : List IndexRange) (i : Nat) : Decidable (Covers rs i) :=
  inferInstanceAs (Decidable (∃ r ∈ rs, Contains r i))

/-- Number of indices in a range. -/
def width (r : IndexRange) : Nat :=
  r.2 - r.1 + 1

/-- Sum of the widths of the listed ranges. -/
def used (rs : List IndexRange) : Nat :=
  (rs.map width).sum

/-- The ranges are nonempty, increasing and pairwise disjoint. -/
def Separated (rs : List IndexRange) : Prop :=
  (∀ r ∈ rs, r.1 ≤ r.2) ∧ rs.Pairwise (fun a b => a.2 < b.1)

/-- Every range of the list ends below `n`. -/
def Below (rs : List IndexRange) (n : Nat) : Prop :=
  ∀ r ∈ rs, r.2 < n

@[simp]
theorem used_nil : used [] = 0 :=
  rfl

@[simp]
theorem used_cons (r : IndexRange) (rs : List IndexRange) : used (r :: rs) = width r + used rs := by
  simp [used]

theorem used_append (xs ys : List IndexRange) : used (xs ++ ys) = used xs + used ys := by
  simp [used]

variable {r : IndexRange} {rs : List IndexRange} {n i : Nat}

theorem covers_cons : Covers (r :: rs) i ↔ Contains r i ∨ Covers rs i := by
  simp [Covers]

/-! ## Separated lists -/

theorem separated_nil : Separated [] :=
  ⟨by simp, List.Pairwise.nil⟩

theorem Separated.tail (h : Separated (r :: rs)) : Separated rs :=
  ⟨fun x hx => h.1 x (mem_cons_of_mem _ hx), (pairwise_cons.mp h.2).2⟩

theorem Separated.head_lt (h : Separated (r :: rs)) : ∀ x ∈ rs, r.2 < x.1 :=
  (pairwise_cons.mp h.2).1

/-- A range that lies after everything in `xs` and before everything in `ys`
keeps the list separated. -/
theorem separated_insert {xs ys : List IndexRange} (h : Separated (xs ++ ys)) (hr : r.1 ≤ r.2)
    (hxs : ∀ x ∈ xs, x.2 < r.1) (hys : ∀ y ∈ ys, r.2 < y.1) :
    Separated (xs ++ r :: ys) := by
  obtain ⟨hval, hpair⟩ := h
  rw [pairwise_append] at hpair
  obtain ⟨hx, hy, hxy⟩ := hpair
  refine ⟨?_, ?_⟩
  · exact forall_mem_append.mpr ⟨fun x hx => hval x (mem_append_left _ hx),
      forall_mem_cons.mpr ⟨hr, fun x hx => hval x (mem_append_right _ hx)⟩⟩
  · rw [pairwise_append]
    refine ⟨hx, pairwise_cons.mpr ⟨hys, hy⟩, ?_⟩
    exact fun a ha => forall_mem_cons.mpr ⟨hxs a ha, hxy a ha⟩

/-! ## Counting covered indices -/

/-- The covered indices below `n`. -/
def coveredBelow (rs : List IndexRange) (n : Nat) : Finset Nat :=
  (Finset.range n).filter (Covers rs)

theorem mem_coveredBelow : i ∈ coveredBelow rs n ↔ i < n ∧ Covers rs i := by
  simp [coveredBelow]

/-- The covered indices of a nonempty list are those of its first range and,
disjoint from them, those of the rest. -/
theorem coveredBelow_cons (hr : r.2 < n) :
    coveredBelow (r :: rs) n = Finset.Icc r.1 r.2 ∪ coveredBelow rs n := by
  ext i
  simp only [mem_coveredBelow, covers_cons, mem_union, mem_Icc]
  constructor
  · rintro ⟨hi, h | h⟩
    · exact .inl h
    · exact .inr ⟨hi, h⟩
  · rintro (h | ⟨hi, h⟩)
    · exact ⟨by omega, .inl h⟩
    · exact ⟨hi, .inr h⟩

theorem card_coveredBelow (h : Separated rs) (hn : Below rs n) :
    (coveredBelow rs n).card = used rs := by
  induction rs with
  | nil => simp [coveredBelow, Covers]
  | cons r rs ih =>
    have hrest : (coveredBelow rs n).card = used rs :=
      ih h.tail (fun x hx => hn x (mem_cons_of_mem _ hx))
    have hdisj : Disjoint (Finset.Icc r.1 r.2) (coveredBelow rs n) := by
      rw [Finset.disjoint_left]
      intro i hi hcov
      obtain ⟨_, x, hx, hxi⟩ := mem_coveredBelow.mp hcov
      have hlt := h.head_lt x hx
      have hile := (mem_Icc.mp hi).2
      have := hxi.1
      omega
    have hle : r.1 ≤ r.2 := h.1 r mem_cons_self
    rw [coveredBelow_cons (hn r mem_cons_self), card_union_of_disjoint hdisj, used_cons,
      Nat.card_Icc, width]
    omega

/-- Separated ranges below `n` never use more than `n` indices. -/
theorem used_le (h : Separated rs) (hn : Below rs n) : used rs ≤ n := by
  rw [← card_coveredBelow h hn]
  exact (card_filter_le _ _).trans (by simp)

/-- An index is left over exactly when the widths do not add up to `n`. -/
theorem exists_uncovered_iff (h : Separated rs) (hn : Below rs n) :
    (∃ i, i < n ∧ ¬ Covers rs i) ↔ used rs < n := by
  have hle : (coveredBelow rs n).card ≤ (Finset.range n).card := card_filter_le _ _
  have hall : (coveredBelow rs n).card = (Finset.range n).card ↔ ∀ i ∈ Finset.range n,
    Covers rs i :=
    card_filter_eq_iff
  rw [card_coveredBelow h hn, card_range] at hle hall
  rw [hle.lt_iff_ne, Ne, hall]
  simp

end SciDB.Ranges
