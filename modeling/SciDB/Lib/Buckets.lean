import Mathlib

/-!
# Buckets

A map from keys to sets that keeps no empty set, as an ordered map of ordered
sets is used for free lists: adding an entry creates its bucket, and removing the
last entry of a bucket removes the bucket.
-/

namespace SciDB.Buckets

open Std Finset

/-- An ordered map from keys to sets of entries. -/
abbrev BucketMap := ExtTreeMap Nat (Finset Nat)

variable {m : BucketMap} {k k' x x' : Nat}

/-- An entry of a bucket. -/
def Has (m : BucketMap) (k x : Nat) : Prop :=
  ∃ b, m[k]? = some b ∧ x ∈ b

instance : Decidable (Has m k x) :=
  match h : m[k]? with
  | none => isFalse (by simp [Has, h])
  | some b => decidable_of_iff (x ∈ b) (by simp [Has, h])

variable (m)

/-- `m[k].insert(x)` -/
def add (k x : Nat) : BucketMap :=
  m.alter k fun b => some (insert x (b.getD ∅))

/-- `m[k].erase(x)`, dropping the bucket when it becomes empty. -/
def remove (k x : Nat) : BucketMap :=
  m.alter k fun b =>
    match b with
    | none => none
    | some b => if b.erase x = ∅ then none else some (b.erase x)

/-- No bucket is empty. -/
def NoEmpty : Prop :=
  ∀ (k : Nat) (b : Finset Nat), m[k]? = some b → b ≠ ∅

/-- The last and largest key, or 0 without any bucket. -/
def largestKey : Nat :=
  m.keys.getLast?.getD 0

theorem add_self (k x : Nat) : (add m k x)[k]? = some (insert x (m[k]?.getD ∅)) := by
  simp [add]

variable {m} {m' : BucketMap}

theorem add_of_ne (h : k' ≠ k) : (add m k x)[k']? = m[k']? := by
  simp [add, ExtTreeMap.getElem?_alter, Ne.symm h]

theorem remove_of_ne (h : k' ≠ k) : (remove m k x)[k']? = m[k']? := by
  simp [remove, ExtTreeMap.getElem?_alter, Ne.symm h]

theorem remove_self (k x : Nat) : (remove m k x)[k]? =
    m[k]?.bind fun b => if b.erase x = ∅ then none else some (b.erase x) := by
  cases h : m[k]? with
  | none => simp [remove, h]
  | some b => simp [remove, h]

theorem has_add : Has (add m k x) k' x' ↔ (k' = k ∧ x' = x) ∨ Has m k' x' := by
  by_cases hk : k' = k
  · subst hk
    simp only [Has, add_self]
    cases m[k']? with
    | none => simp
    | some b => simp
  · simp [Has, add_of_ne hk, hk]

theorem has_remove : Has (remove m k x) k' x' ↔ Has m k' x' ∧ ¬ (k' = k ∧ x' = x) := by
  by_cases hk : k' = k
  · subst hk
    simp only [Has, true_and, remove_self]
    cases m[k']? with
    | none => simp
    | some b =>
      rw [Option.bind_some]
      by_cases hempty : b.erase x = ∅
      · rw [if_pos hempty]
        simp only [reduceCtorEq, false_and, exists_false, Option.some.injEq, exists_eq_left',
          false_iff, not_and]
        intro hx'
        by_contra hne
        have hmem : x' ∈ b.erase x := mem_erase.mpr ⟨hne, hx'⟩
        rw [hempty] at hmem
        exact absurd hmem (notMem_empty x')
      · rw [if_neg hempty]
        simp [and_comm]
  · simp [Has, remove_of_ne hk, hk]

theorem NoEmpty.add (h : NoEmpty m) (k x : Nat) : NoEmpty (add m k x) := by
  intro k' b hb
  by_cases hk : k' = k
  · subst hk
    rw [add_self, Option.some.injEq] at hb
    rw [← hb]
    exact insert_ne_empty _ _
  · rw [add_of_ne hk] at hb
    exact h k' b hb

theorem NoEmpty.remove (h : NoEmpty m) (k x : Nat) : NoEmpty (remove m k x) := by
  intro k' b hb
  by_cases hk : k' = k
  · subst hk
    rw [remove_self, Option.bind_eq_some_iff] at hb
    rcases hb with ⟨b', -, hb⟩
    split at hb
    · cases hb
    · rename_i hne
      cases hb
      exact hne
  · rw [remove_of_ne hk] at hb
    exact h k' b hb

/-- Without empty buckets a bucket is there exactly if it has an entry. -/
theorem NoEmpty.mem_iff (h : NoEmpty m) : k ∈ m ↔ ∃ x, Has m k x := by
  rw [ExtTreeMap.mem_iff_isSome_getElem?, Option.isSome_iff_exists]
  constructor
  · rintro ⟨b, hb⟩
    rcases nonempty_iff_ne_empty.mpr (h k b hb) with ⟨x, hx⟩
    exact ⟨x, b, hb, hx⟩
  · rintro ⟨x, b, hb, _⟩
    exact ⟨b, hb⟩

theorem NoEmpty.getElem?_of_has (h : NoEmpty m)
    (heq : ∀ k x, Has m k x ↔ Has m' k x) {b : Finset Nat} (hb : m[k]? = some b) :
    m'[k]? = some b := by
  rcases nonempty_iff_ne_empty.mpr (h k b hb) with ⟨x, hx⟩
  rcases (heq k x).mp ⟨b, hb, hx⟩ with ⟨b', hb', -⟩
  rw [hb', Option.some.injEq]
  ext y
  have hy := heq k y
  simp only [Has, hb, hb', Option.some.injEq, exists_eq_left'] at hy
  exact hy.symm

/-- Maps without empty buckets are equal when their entries are. -/
theorem ext_has (h : NoEmpty m) (h' : NoEmpty m')
    (heq : ∀ k x, Has m k x ↔ Has m' k x) : m = m' := by
  apply ExtTreeMap.ext_getElem?
  intro k
  apply Option.ext
  intro b
  exact ⟨h.getElem?_of_has heq, h'.getElem?_of_has fun k x => (heq k x).symm⟩

/-- The largest key bounds all keys. -/
theorem le_largestKey (h : k ∈ m) : k ≤ largestKey m := by
  have hmem := ExtTreeMap.mem_keys.mpr h
  have hsorted : m.keys.Pairwise (· ≤ ·) :=
    ExtTreeMap.ordered_keys.imp fun hlt => (Nat.compare_eq_lt.mp hlt).le
  have hne : m.keys ≠ [] := List.ne_nil_of_mem hmem
  rw [largestKey, List.getLast?_eq_some_getLast]
  exact hsorted.rel_getLast hmem

/-- The largest key is a key unless it is 0. -/
theorem largestKey_mem (h : largestKey m ≠ 0) : largestKey m ∈ m := by
  cases hlast : m.keys.getLast? with
  | none => simp [largestKey, hlast] at h
  | some key =>
    rw [largestKey, hlast]
    exact ExtTreeMap.mem_keys.mp (List.mem_of_getLast? hlast)

end SciDB.Buckets
