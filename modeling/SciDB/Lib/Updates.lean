import Mathlib

/-!
# Writing entries of a list one after the other

A loop that stores values at given indices of a vector.  If no index occurs twice,
the order of the writes does not matter: each entry holds what was written to it.

Main results:

- Theorem {lit}`getElem?_writeAll_of_mem`: a written entry.
- Theorem {lit}`getElem?_writeAll_of_notMem`: an entry that no write names.
-/

namespace SciDB.Updates

open List

variable {α : Type*} {writes : List (Nat × α)} {v : List α} {k : Nat} {x : α}

/-- Store the values at their indices, from the first one on. -/
def writeAll (writes : List (Nat × α)) (v : List α) : List α :=
  writes.foldl (fun v w => v.set w.1 w.2) v

@[simp]
theorem length_writeAll (writes : List (Nat × α)) (v : List α) :
    (writeAll writes v).length = v.length := by
  induction writes generalizing v with
  | nil => rfl
  | cons w writes ih =>
    rw [writeAll, foldl_cons, ← writeAll, ih, length_set]

theorem getElem?_writeAll_of_notMem (h : k ∉ writes.map Prod.fst) :
    (writeAll writes v)[k]? = v[k]? := by
  induction writes generalizing v with
  | nil => rfl
  | cons w writes ih =>
    rw [map_cons, mem_cons, not_or] at h
    rw [writeAll, foldl_cons, ← writeAll, ih h.2, getElem?_set_ne (Ne.symm h.1)]

theorem getElem?_writeAll_of_mem (hnodup : (writes.map Prod.fst).Nodup) (hmem : (k, x) ∈ writes)
    (hk : k < v.length) : (writeAll writes v)[k]? = some x := by
  induction writes generalizing v with
  | nil => cases hmem
  | cons w writes ih =>
    rw [map_cons, nodup_cons] at hnodup
    rw [writeAll, foldl_cons, ← writeAll]
    rcases mem_cons.mp hmem with rfl | hmem
    · rw [getElem?_writeAll_of_notMem hnodup.1, getElem?_set_self hk]
    · exact ih hnodup.2 hmem (by rwa [length_set])

/-- What a vector of equal entries holds after the writes. -/
theorem getElem?_writeAll_replicate {n : Nat} {y : α} (hnodup : (writes.map Prod.fst).Nodup)
    (hx : x ≠ y) :
    (writeAll writes (List.replicate n y))[k]? = some x ↔ k < n ∧ (k, x) ∈ writes := by
  constructor
  · intro h
    have hk : k < n := by
      have := (List.getElem?_eq_some_iff.mp h).1
      rwa [length_writeAll, length_replicate] at this
    refine ⟨hk, ?_⟩
    by_cases hmem : k ∈ writes.map Prod.fst
    · rcases mem_map.mp hmem with ⟨w, hw, rfl⟩
      rw [getElem?_writeAll_of_mem hnodup hw (by rwa [length_replicate]), Option.some.injEq] at h
      rwa [← h]
    · rw [getElem?_writeAll_of_notMem hmem, getElem?_replicate_of_lt hk, Option.some.injEq] at h
      exact absurd h.symm hx
  · rintro ⟨hk, hmem⟩
    exact getElem?_writeAll_of_mem hnodup hmem (by rwa [length_replicate])

end SciDB.Updates
