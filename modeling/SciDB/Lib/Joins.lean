import SciDB.Lib.OrderedMap

/-!
# Joins

The pairs of a nested loop: for each member of an outer list the members of an inner
list that belong to it.  A cursor of the loop is a place in the outer list and one in
the inner list of its member.  A hash join keeps the inner members in buckets, one for
each key.

Main results:

- Theorem {lit}`find_build`: a bucket has the rows with its key, in their order.
- Theorem {lit}`perm_build`: each row is in one bucket.
- Theorem {lit}`pairwise_joined`: the order of the pairs.
- Theorem {lit}`joined_split`: what is behind a cursor.
-/

namespace SciDB.Joins

open List

/-! ## Buckets -/

section Table

variable {K β γ : Type*} [DecidableEq K] {table : List (K × List γ)} {k k' : K}

/-- Append a row to the bucket of its key, which is created with its first row. -/
def push (k : K) (row : γ) : List (K × List γ) → List (K × List γ)
  | [] => [(k, [row])]
  | (k', bucket) :: table =>
    if k' = k then (k', bucket ++ [row]) :: table else (k', bucket) :: push k row table

variable (key : β → K) {row : γ}

/-- Distribute rows over the buckets of their keys. -/
def build (row : β → γ) (rows : List β) : List (K × List γ) :=
  rows.foldl (fun table r => push (key r) (row r) table) []

/-- The bucket of a key, if there is one. -/
def find (k : K) : List (K × List γ) → Option (List γ)
  | [] => none
  | (k', bucket) :: table => if k' = k then some bucket else find k table

theorem find_push (k' : K) (row : γ) (table : List (K × List γ)) :
    find k (push k' row table) =
      if k' = k then some ((find k table).getD [] ++ [row]) else find k table := by
  induction table with
  | nil => rfl
  | cons e table ih =>
    rcases e with ⟨k₁, bucket⟩
    rw [push]
    by_cases h₁ : k₁ = k'
    · rw [if_pos h₁, find, find, h₁]
      by_cases hk : k' = k
      · rw [if_pos hk, if_pos hk, if_pos hk]
        rfl
      · rw [if_neg hk, if_neg hk, if_neg hk]
    · rw [if_neg h₁, find, find, ih]
      by_cases hk : k₁ = k
      · rw [if_pos hk, if_pos hk, if_neg (fun h => h₁ (hk.trans h.symm))]
      · rw [if_neg hk, if_neg hk]

/-- The bucket that a list of rows makes. -/
def bucketOf (rows : List γ) : Option (List γ) :=
  if rows.isEmpty then none else some rows

theorem getD_bucketOf (rows : List γ) : (bucketOf rows).getD [] = rows := by
  cases rows <;> rfl

theorem build_concat (row : β → γ) (rows : List β) (r : β) :
    build key row (rows ++ [r]) = push (key r) (row r) (build key row rows) := by
  rw [build, foldl_append]
  rfl

/-- A bucket has the rows with its key, in their order. -/
theorem find_build (row : β → γ) (rows : List β) (k : K) :
    find k (build key row rows) = bucketOf ((rows.filter fun r => key r = k).map row) := by
  induction rows using List.reverseRecOn with
  | nil => rfl
  | append_singleton rows r ih =>
    rw [build_concat, find_push, ih, filter_append]
    by_cases hk : key r = k
    · rw [if_pos hk, getD_bucketOf, filter_cons_of_pos (by simpa using hk), map_append, bucketOf,
        if_neg (by simp)]
      rfl
    · rw [if_neg hk, filter_cons_of_neg (by simpa using hk), filter_nil, append_nil]

theorem mem_push (h : k ∈ (push k' row table).map Prod.fst) : k = k' ∨ k ∈ table.map Prod.fst := by
  induction table with
  | nil => exact .inl (mem_singleton.mp h)
  | cons e table ih =>
    rw [push] at h
    split at h
    · exact .inr h
    · rw [map_cons, mem_cons] at h ⊢
      rcases h with h | h
      · exact .inr (.inl h)
      · exact (ih h).imp_right .inr

theorem nodup_push (h : (table.map Prod.fst).Nodup) : ((push k row table).map Prod.fst).Nodup := by
  induction table with
  | nil => exact nodup_singleton k
  | cons e table ih =>
    rw [push]
    split
    · exact h
    next hne =>
      rw [map_cons, nodup_cons] at h ⊢
      refine ⟨?_, ih h.2⟩
      intro hmem
      rcases mem_push hmem with heq | hmem
      · exact hne heq
      · exact h.1 hmem

theorem find_eq_lookup (k : K) (table : List (K × List γ)) : find k table = table.lookup k := by
  induction table with
  | nil => rfl
  | cons e table ih =>
    rw [find, ih]
    split
    next hk => rw [← hk, OrderedMap.lookup_cons_self]
    next hk => rw [OrderedMap.lookup_cons_of_ne (Ne.symm hk)]

/-- The buckets that are there. -/
theorem mem_build {key : β → K} {row : β → γ} {rows : List β} {e : K × List γ}
    (he : e ∈ build key row rows) : e.2 = (rows.filter fun r => key r = e.1).map row := by
  have hnodup : ((build key row rows).map Prod.fst).Nodup := by
    clear he
    induction rows using List.reverseRecOn with
    | nil => exact nodup_nil
    | append_singleton rows r ih =>
      rw [build_concat]
      exact nodup_push ih
  have hfind := OrderedMap.lookup_of_nodup hnodup he
  rw [← find_eq_lookup, find_build] at hfind
  rw [← getD_bucketOf (List.map row _), hfind]
  rfl

theorem perm_push (k : K) (row : γ) (table : List (K × List γ)) :
    ((push k row table).flatMap Prod.snd).Perm (table.flatMap Prod.snd ++ [row]) := by
  induction table with
  | nil => exact .refl _
  | cons e table ih =>
    rw [push]
    split
    · rw [flatMap_cons, flatMap_cons, append_assoc, append_assoc]
      exact perm_append_comm.append_left e.2
    · rw [flatMap_cons, flatMap_cons, append_assoc]
      exact ih.append_left e.2

/-- Each row is in one bucket. -/
theorem perm_build (row : β → γ) (rows : List β) :
    ((build key row rows).flatMap Prod.snd).Perm (rows.map row) := by
  induction rows using List.reverseRecOn with
  | nil => exact .refl _
  | append_singleton rows r ih =>
    rw [build_concat, map_append]
    exact (perm_push _ _ _).trans (ih.append_right _)

end Table

/-! ## Nested loops -/

section Search

variable {α : Type*} {p : α → Bool} {l rest : List α} {x : α}

/-- A loop that looks for the next match passes over nothing else. -/
theorem filter_of_dropWhile (h : l.dropWhile (fun y => !p y) = x :: rest) :
    p x ∧ (x :: rest) <:+ l ∧ l.filter p = x :: rest.filter p := by
  induction l with
  | nil => cases h
  | cons y l ih =>
    cases hy : p y with
    | true =>
      rw [dropWhile_cons_of_neg (by simp [hy])] at h
      cases h
      exact ⟨hy, suffix_rfl, filter_cons_of_pos hy⟩
    | false =>
      rw [dropWhile_cons_of_pos (by simp [hy])] at h
      rcases ih h with ⟨hx, hsuf, hfilter⟩
      exact ⟨hx, hsuf.trans (suffix_cons y l), by rwa [filter_cons_of_neg (by simp [hy])]⟩

theorem filter_eq_nil_of_dropWhile (h : l.dropWhile (fun y => !p y) = []) : l.filter p = [] := by
  rw [dropWhile_eq_nil_iff] at h
  rw [filter_eq_nil_iff]
  intro y hy
  simpa using h y hy

end Search

section Loops

variable {α β : Type*} {inner : α → List β} {a : α} {outer front : List α} {bs seen : List β}

/-- The pairs of the loops. -/
def joined (outer : List α) (inner : α → List β) : List (α × β) :=
  outer.flatMap fun a => (inner a).map (Prod.mk a)

/-- The pairs from a cursor on. -/
def remaining (inner : α → List β) : List α → List β → List (α × β)
  | [], _ => []
  | a :: outer, bs => bs.map (Prod.mk a) ++ joined outer inner

theorem mem_joined {e : α × β} : e ∈ joined outer inner ↔ e.1 ∈ outer ∧ e.2 ∈ inner e.1 := by
  rw [joined, mem_flatMap]
  constructor
  · rintro ⟨a, ha, he⟩
    rcases mem_map.mp he with ⟨b, hb, rfl⟩
    exact ⟨ha, hb⟩
  · rintro ⟨ha, hb⟩
    exact ⟨e.1, ha, mem_map.mpr ⟨e.2, hb, rfl⟩⟩

theorem joined_cons (a : α) (outer : List α) (inner : α → List β) :
    joined (a :: outer) inner = remaining inner (a :: outer) (inner a) :=
  flatMap_cons

/-- A member of the outer list without partner is passed over. -/
theorem joined_cons_of_nil (h : inner a = []) : joined (a :: outer) inner = joined outer inner := by
  rw [joined_cons, h]
  rfl

/-- What is behind a cursor are the last pairs of the loops. -/
theorem joined_split (h : inner a = seen ++ bs) :
    joined (front ++ a :: outer) inner =
      (joined front inner ++ seen.map (Prod.mk a)) ++ remaining inner (a :: outer) bs := by
  rw [joined, flatMap_append, flatMap_cons, h, map_append, remaining, joined, joined]
  simp

theorem pairwise_joined {R : α × β → α × β → Prop}
    (houter : outer.Pairwise fun a a' => ∀ b ∈ inner a, ∀ b' ∈ inner a', R (a, b) (a', b'))
    (hinner : ∀ a ∈ outer, (inner a).Pairwise fun b b' => R (a, b) (a, b')) :
    (joined outer inner).Pairwise R := by
  rw [joined, pairwise_flatMap]
  constructor
  · intro a ha
    rw [pairwise_map]
    exact hinner a ha
  · refine houter.imp ?_
    intro a a' h x hx y hy
    rcases mem_map.mp hx with ⟨b, hb, rfl⟩
    rcases mem_map.mp hy with ⟨b', hb', rfl⟩
    exact h b hb b' hb'

end Loops

end SciDB.Joins
