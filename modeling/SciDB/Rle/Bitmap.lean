import SciDB.Lib.SortedMerge
import SciDB.Rle.Payload

/-!
# Empty bitmaps

The empty bitmap of a chunk lists the logical positions of its cells as segments
of consecutive positions.  A cell at a logical position is found in the payload
at its physical position.  A bitmap is dense if its cells have the physical
positions 0, 1, 2 and so on.

The definitions follow `ConstRLEEmptyBitmap` and `RLEEmptyBitmap` of
`include/array/RLE.h`.  Positions are natural numbers below `2 ^ 63`.

Main results:

- Theorem {lit}`Bitmap.findSegment_eq`: the search for a logical position.
- Theorem {lit}`lookup_eq_none`: a position outside the segments has no cell.
-/

namespace SciDB.Rle

open Bisect OrderedMap SortedMerge List

/-- `ConstRLEEmptyBitmap::Segment` -/
structure BitmapSegment where
  lPosition : Nat
  length : Nat
  pPosition : Nat
deriving DecidableEq, Repr

/-- `ConstRLEEmptyBitmap` -/
structure Bitmap where
  segs : List BitmapSegment
  nNonEmptyElements : Nat
deriving DecidableEq, Repr

namespace Bitmap

/-- `getSegment` -/
def getSegment (bm : Bitmap) (i : Nat) : Except Fault BitmapSegment :=
  match bm.segs[i]? with
  | none => .error (.assertion "i < _nSegs")
  | some s => .ok s

/-- `findSegment` -/
def findSegment (bm : Bitmap) (pos : Nat) : Except Fault Nat :=
  bisect (fun m => do
    let s ← bm.getSegment m
    return if s.lPosition + s.length ≤ pos then .lt else .gt) bm.segs.length 0 bm.segs.length

end Bitmap

/-! ## The cells of a bitmap -/

/-- Consecutive logical positions with their physical positions. -/
def block (l p n : Nat) : List (Nat × Nat) :=
  (List.range n).map fun j => (l + j, p + j)

@[simp]
theorem length_block (l p n : Nat) : (block l p n).length = n := by
  simp [block]

theorem block_add (l p m n : Nat) : block l p (m + n) = block l p m ++ block (l + m) (p + m) n := by
  simp [block, range_add, Nat.add_assoc]

variable {e : Nat × Nat}

theorem mem_block {l p n : Nat} : e ∈ block l p n ↔ ∃ j < n, e = (l + j, p + j) := by
  simp [block, eq_comm]

theorem map_snd_block (l p n : Nat) : (block l p n).map Prod.snd = List.range' p n := by
  rw [block, map_map, List.range'_eq_map_range]
  rfl

/-- The cells of some segments: their logical and physical positions. -/
def entries (segs : List BitmapSegment) : List (Nat × Nat) :=
  segs.flatMap fun s => block s.lPosition s.pPosition s.length

/-- The segments are disjoint and in order, from a logical position on, and their
physical positions are consecutive. -/
def Dense : (p l : Nat) → List BitmapSegment → Prop
  | _, _, [] => True
  | p, l, s :: segs => l ≤ s.lPosition ∧ 0 < s.length ∧ s.pPosition = p ∧
      Dense (p + s.length) (s.lPosition + s.length) segs

/-- The segments are disjoint and in order, logically and physically. -/
def Increasing : (p l : Nat) → List BitmapSegment → Prop
  | _, _, [] => True
  | p, l, s :: segs => l ≤ s.lPosition ∧ 0 < s.length ∧ p ≤ s.pPosition ∧
      Increasing (s.pPosition + s.length) (s.lPosition + s.length) segs

/-- A well-formed dense bitmap. -/
structure Bitmap.WellFormed (bm : Bitmap) : Prop where
  dense : Dense 0 0 bm.segs
  count : bm.nNonEmptyElements = (entries bm.segs).length

section

variable {p l : Nat} {segs : List BitmapSegment}

@[simp]
theorem entries_nil : entries [] = [] :=
  rfl

@[simp]
theorem entries_cons (s : BitmapSegment) (segs : List BitmapSegment) :
    entries (s :: segs) = block s.lPosition s.pPosition s.length ++ entries segs :=
  flatMap_cons

theorem entries_concat (segs : List BitmapSegment) (s : BitmapSegment) :
    entries (segs ++ [s]) = entries segs ++ block s.lPosition s.pPosition s.length := by
  simp [entries]

namespace Dense

/-- The physical positions are consecutive. -/
theorem map_snd (h : Dense p l segs) :
    (entries segs).map Prod.snd = List.range' p (entries segs).length := by
  induction segs generalizing p l with
  | nil => rfl
  | cons s segs ih =>
    rcases h with ⟨_, _, hp, h⟩
    rw [entries_cons, map_append, map_snd_block, ih h, hp, length_append, length_block,
      List.range'_append_1]

theorem increasing (h : Dense p l segs) : Increasing p l segs := by
  induction segs generalizing p l with
  | nil => trivial
  | cons s segs ih =>
    rcases h with ⟨hl, hpos, rfl, h⟩
    exact ⟨hl, hpos, le_rfl, ih h⟩

end Dense

namespace Increasing

theorem le_entry (h : Increasing p l segs) (he : e ∈ entries segs) : l ≤ e.1 ∧ p ≤ e.2 := by
  induction segs generalizing p l with
  | nil => simp at he
  | cons s segs ih =>
    rcases h with ⟨hl, _, hp, h⟩
    rw [entries_cons, mem_append] at he
    rcases he with he | he
    · rcases mem_block.mp he with ⟨j, _, rfl⟩
      exact ⟨Nat.le_add_right_of_le hl, Nat.le_add_right_of_le hp⟩
    · have := ih h he
      omega

/-- The positions increase. -/
theorem pairwise (h : Increasing p l segs) :
    (entries segs).Pairwise fun e f => e.1 < f.1 ∧ e.2 < f.2 := by
  induction segs generalizing p l with
  | nil => exact List.Pairwise.nil
  | cons s segs ih =>
    rcases h with ⟨_, _, _, h⟩
    rw [entries_cons, pairwise_append]
    refine ⟨?_, ih h, ?_⟩
    · rw [block, pairwise_map]
      exact pairwise_lt_range.imp fun hlt =>
        ⟨Nat.add_lt_add_left hlt _, Nat.add_lt_add_left hlt _⟩
    · intro e he f hf
      rcases mem_block.mp he with ⟨j, hj, rfl⟩
      have := h.le_entry hf
      omega

/-- The logical positions increase. -/
theorem sorted (h : Increasing p l segs) : Sorted (entries segs) :=
  h.pairwise.imp And.left

variable {s : BitmapSegment}

variable (h : Increasing p l segs)

include h

theorem le_lPosition (hs : s ∈ segs) : l ≤ s.lPosition := by
  induction segs generalizing p l with
  | nil => simp at hs
  | cons t segs ih =>
    rcases h with ⟨hl, _, _, h⟩
    rcases mem_cons.mp hs with rfl | hs
    · exact hl
    · have := ih h hs
      omega

theorem length_pos (hs : s ∈ segs) : 0 < s.length := by
  induction segs generalizing p l with
  | nil => simp at hs
  | cons t segs ih =>
    rcases h with ⟨_, hpos, _, h⟩
    rcases mem_cons.mp hs with rfl | hs
    · exact hpos
    · exact ih h hs

/-- A position separates the segments before it from the ones that end behind it. -/
theorem locate (pos : Nat) :
    ∃ a b, segs = a ++ b ∧ (∀ s ∈ a, s.lPosition + s.length ≤ pos) ∧
      (∀ s ∈ b, pos < s.lPosition + s.length) ∧ ∀ s ∈ b.tail, pos < s.lPosition := by
  induction segs generalizing p l with
  | nil => exact ⟨[], [], rfl, by simp, by simp, by simp⟩
  | cons s segs ih =>
    rcases h with ⟨_, _, _, h⟩
    by_cases hend : s.lPosition + s.length ≤ pos
    · rcases ih h with ⟨a, b, rfl, ha, hb, htail⟩
      exact ⟨s :: a, b, rfl, forall_mem_cons.mpr ⟨hend, ha⟩, hb, htail⟩
    · have hlater : ∀ t ∈ segs, pos < t.lPosition := by
        intro t ht
        have := h.le_lPosition ht
        omega
      refine ⟨[], s :: segs, rfl, by simp, forall_mem_cons.mpr ⟨by omega, ?_⟩, hlater⟩
      intro t ht
      have := hlater t ht
      omega

end Increasing

theorem mem_entries :
    e ∈ entries segs ↔ ∃ s ∈ segs, ∃ j < s.length, e = (s.lPosition + j, s.pPosition + j) := by
  simp [entries, mem_block]

end

section

variable {bm : Bitmap} {a b : List BitmapSegment} {pos : Nat}

/-- The search stops at the first segment that ends behind the position. -/
theorem Bitmap.findSegment_eq (hsegs : bm.segs = a ++ b)
    (ha : ∀ s ∈ a, s.lPosition + s.length ≤ pos) (hb : ∀ s ∈ b, pos < s.lPosition + s.length) :
    bm.findSegment pos = .ok a.length := by
  apply bisect_eq (Nat.zero_le _) (by simp [hsegs]) le_rfl
  · intro m hm
    have hm' : bm.segs[m]? = some (a.get ⟨m, hm⟩) := by
      rw [hsegs, getElem?_append_left hm, getElem?_eq_getElem]
      rfl
    rw [Bitmap.getSegment, hm']
    exact .inl (congrArg Except.ok (if_pos (ha _ (get_mem _ _))))
  · intro m hm hmn
    rw [hsegs, length_append] at hmn
    have hm' : bm.segs[m]? = some (b.get ⟨m - a.length, by omega⟩) := by
      rw [hsegs, getElem?_append_right hm, getElem?_eq_getElem]
      rfl
    rw [Bitmap.getSegment, hm']
    exact congrArg Except.ok (if_neg (not_le.mpr (hb _ (get_mem _ _))))

/-- A position outside the segments has no cell. -/
theorem lookup_eq_none (ha : ∀ s ∈ a, s.lPosition + s.length ≤ pos)
    (hb : ∀ s ∈ b, pos < s.lPosition) :
    (entries (a ++ b)).lookup pos = none := by
  rw [lookup_eq_none_iff]
  intro e he
  rcases mem_entries.mp he with ⟨s, hs, j, hj, rfl⟩
  have hne : pos ≠ s.lPosition + j := by
    rcases mem_append.mp hs with hs | hs
    · have := ha s hs
      omega
    · have := hb s hs
      omega
  simpa using hne

end

end SciDB.Rle
