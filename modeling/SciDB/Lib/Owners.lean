import Mathlib.Data.Finset.Basic
import Mathlib.Data.Finset.Filter
import Mathlib.Logic.Function.Basic

/-!
# Who owns what

Owners hold at most one block each.  The blocks are owned exactly once if no two owners
hold the same one and the blocks held are those in use.  Taking a fresh block, giving
one back and handing one over keep that.

Main results:

- Theorem {lit}`Owned.take`: an owner without a block takes a fresh one.
- Theorem {lit}`Owned.drop`: an owner gives its block back.
- Theorem {lit}`Owned.hand`: an owner hands its block to one that has none.
- Theorem {lit}`Owned.dropAll`: several owners give their blocks back.
-/

namespace SciDB

open Function Finset

variable {ι β : Type*} {block : ι → Option β} {used : Finset β} {i j : ι} {b : β}

/-- Every block in use has one owner, and owners hold only blocks in use. -/
structure Owned (block : ι → Option β) (used : Finset β) : Prop where
  mem : ∀ i b, block i = some b → b ∈ used
  inj : ∀ i j b, block i = some b → block j = some b → i = j
  cover : ∀ b ∈ used, ∃ i, block i = some b

namespace Owned

/-- The owners with a property give their blocks back. -/
theorem dropAll (h : Owned block used) (p : ι → Prop) [DecidablePred p] {used' : Finset β}
    (hused : ∀ b, b ∈ used' ↔ b ∈ used ∧ ∀ i, block i = some b → ¬p i) :
    Owned (fun i => if p i then none else block i) used' := by
  constructor
  · intro k c hk
    split at hk
    · cases hk
    · rename_i hp
      refine (hused c).mpr ⟨h.mem k c hk, fun l hl => ?_⟩
      rw [h.inj l k c hl hk]
      exact hp
  · intro k l c hk hl
    split at hk
    · cases hk
    · split at hl
      · cases hl
      · exact h.inj k l c hk hl
  · intro c hc
    rcases (hused c).mp hc with ⟨hc, hp⟩
    rcases h.cover c hc with ⟨k, hk⟩
    exact ⟨k, by rw [if_neg (hp k hk), hk]⟩

variable [DecidableEq ι] [DecidableEq β]

theorem take (h : Owned block used) (hi : block i = none) (hb : b ∉ used) :
    Owned (Function.update block i (some b)) (insert b used) := by
  have hne : ∀ k, block k ≠ some b := fun k hk => hb (h.mem k b hk)
  constructor
  · intro k c hk
    rw [update_apply] at hk
    split at hk
    · rw [Option.some.injEq] at hk
      exact hk ▸ mem_insert_self b used
    · exact mem_insert_of_mem (h.mem k c hk)
  · intro k l c hk hl
    rw [update_apply] at hk hl
    split at hk
    · rename_i hki
      split at hl
      · rename_i hli
        rw [hki, hli]
      · exact (hne l (hl.trans hk.symm)).elim
    · split at hl
      · exact (hne k (hk.trans hl.symm)).elim
      · exact h.inj k l c hk hl
  · intro c hc
    rcases mem_insert.mp hc with rfl | hc
    · exact ⟨i, update_self ..⟩
    · rcases h.cover c hc with ⟨k, hk⟩
      have hki : k ≠ i := by
        rintro rfl
        rw [hi] at hk
        cases hk
      exact ⟨k, by rw [update_of_ne hki, hk]⟩

theorem drop (h : Owned block used) (hi : block i = some b) :
    Owned (Function.update block i none) (used.erase b) := by
  have hused : ∀ c, c ∈ used.erase b ↔ c ∈ used ∧ ∀ k, block k = some c → ¬k = i := by
    intro c
    rw [mem_erase]
    constructor
    · rintro ⟨hne, hc⟩
      refine ⟨hc, fun k hk hki => hne ?_⟩
      rw [hki, hi, Option.some.injEq] at hk
      exact hk.symm
    · rintro ⟨hc, hk⟩
      refine ⟨?_, hc⟩
      rintro rfl
      exact hk i hi rfl
  have heq : (fun k => if k = i then none else block k) = Function.update block i none := by
    ext k : 1
    rw [update_apply]
  exact heq ▸ h.dropAll (· = i) hused

theorem hand (h : Owned block used) (hi : block i = some b) (hj : block j = none) :
    Owned (Function.update (Function.update block i none) j (some b)) used := by
  have hdrop := h.drop hi
  have hnone : Function.update block i none j = none := by
    rw [update_apply]
    split
    · rfl
    · exact hj
  have htake := hdrop.take hnone (notMem_erase b used)
  rwa [insert_erase (h.mem i b hi)] at htake

end Owned
end SciDB
