import SciDB.Lib.OrderedMap

/-!
# Merging sorted entries

Several lists of entries with increasing keys are merged into one; where more than one has
an entry for a key, that of the first of them is taken.

Main results:

- Theorem {lit}`lookup_unionAll`: looking up a key in the union of several lists.
- Theorem {lit}`unionAll_least`: the union starts with the least of the first entries.
-/

namespace SciDB.SortedMerge

open OrderedMap
open List hiding lookup_cons_self merge

variable {κ α : Type*} [LinearOrder κ]

/-! ## The union of several lists -/

/-- The union of several lists; where more than one of them has an entry for a key, the
first of these is taken. -/
def unionAll : List (List (κ × α)) → List (κ × α)
  | [] => []
  | l :: ls => merge (unionAll ls) l

variable {ls : List (List (κ × α))} {e : κ × α}

theorem sorted_unionAll (h : ∀ l ∈ ls, Sorted l) : Sorted (unionAll ls) := by
  induction ls with
  | nil => exact List.Pairwise.nil
  | cons l ls ih =>
    rw [forall_mem_cons] at h
    exact sorted_merge (ih h.2) h.1

/-- Looking up a key in the union. -/
theorem lookup_unionAll (h : ∀ l ∈ ls, Sorted l) (k : κ) :
    (unionAll ls).lookup k = ls.findSome? (fun l => l.lookup k) := by
  induction ls with
  | nil => rfl
  | cons l ls ih =>
    rw [forall_mem_cons] at h
    rw [unionAll, lookup_merge (sorted_unionAll h.2) h.1, ih h.2, findSome?_cons]
    cases l.lookup k <;> rfl

theorem mem_unionAll (he : e ∈ unionAll ls) : ∃ l ∈ ls, e ∈ l := by
  induction ls with
  | nil => cases he
  | cons l ls ih =>
    rcases mem_merge he with he | he
    · rcases ih he with ⟨l', hl', he'⟩
      exact ⟨l', mem_cons_of_mem l hl', he'⟩
    · exact ⟨l, mem_cons_self, he⟩

theorem unionAll_eq_nil (h : ∀ l ∈ ls, l = []) : unionAll ls = [] := by
  apply eq_nil_iff_forall_not_mem.mpr
  intro e he
  rcases mem_unionAll he with ⟨l, hl, hel⟩
  rw [h l hl] at hel
  cases hel

variable (h : ∀ l ∈ ls, Sorted l)

include h

/-- Keeping the keys with a property, before or after the union. -/
theorem unionAll_filter (p : κ → Bool) :
    unionAll (ls.map fun l => l.filter (fun e => p e.1)) =
      (unionAll ls).filter (fun e => p e.1) := by
  induction ls with
  | nil => rfl
  | cons l ls ih =>
    rw [forall_mem_cons] at h
    have hunion := sorted_unionAll h.2
    have hl : Sorted (l.filter fun e => p e.1) := h.1.sublist filter_sublist
    have hls : Sorted ((unionAll ls).filter fun e => p e.1) :=
      hunion.sublist filter_sublist
    have hmerge : Sorted ((merge (unionAll ls) l).filter fun e => p e.1) :=
      (sorted_merge hunion h.1).sublist filter_sublist
    rw [map_cons, unionAll, ih h.2]
    apply (sorted_merge hls hl).ext_lookup hmerge
    intro k
    rw [lookup_merge hls hl, lookup_filter h.1, lookup_filter hunion,
      lookup_filter (sorted_merge hunion h.1), lookup_merge hunion h.1]
    split <;> rfl

/-- Skipping the entries up to a key, before or after the union. -/
theorem unionAll_dropWhile (k : κ) :
    unionAll (ls.map fun l => l.dropWhile (fun e => decide (e.1 ≤ k))) =
      (unionAll ls).filter (fun e => decide (k < e.1)) := by
  rw [← unionAll_filter h (fun k' => decide (k < k'))]
  congr 1
  exact map_congr_left fun l hl => (h l hl).dropWhile_le k

omit h

/-- The union starts with the least of the first entries; of those with the same key it
is the one of the first list. -/
theorem unionAll_least {rest : List (κ × α)} {front back : List (List (κ × α))}
    (h : ∀ l ∈ front ++ (e :: rest) :: back, Sorted l)
    (hle : ∀ l ∈ front ++ (e :: rest) :: back, ∀ f ∈ l, e.1 ≤ f.1)
    (hlt : ∀ l ∈ front, ∀ f ∈ l, e.1 < f.1) :
    unionAll (front ++ (e :: rest) :: back) =
      e :: unionAll ((front ++ (e :: rest) :: back).map
        fun l => l.dropWhile (fun f => decide (f.1 ≤ e.1))) := by
  have hlookup : (unionAll (front ++ (e :: rest) :: back)).lookup e.1 = some e.2 := by
    rw [lookup_unionAll h, findSome?_eq_some_iff]
    exact ⟨front, e :: rest, back, rfl, lookup_cons_self e rest,
      fun l hl => lookup_eq_none_of_lt (hlt l hl)⟩
  rw [unionAll_dropWhile h]
  apply (sorted_unionAll h).eq_cons hlookup
  intro f hf
  rcases mem_unionAll hf with ⟨l, hl, hfl⟩
  exact hle l hl f hfl

end SciDB.SortedMerge
