import SciDB.Distribution.Enumeration
import SciDB.Distribution.Positions
import SciDB.Lib.Iteration
import SciDB.Lib.OrderedMap
import SciDB.Operators.SubArray

/-!
# The slice operator

`SliceArray` (`src/query/ops/slice/SliceArray.cpp`) fixes the coordinates of some
dimensions of its input and drops these dimensions.  It has two iterators over chunks:
`SliceArrayIterator` tries every chunk position of the slice, and
`InfiniteSliceArrayIterator`, made when the slice has more than 6000 chunk positions,
walks over all chunks of the input and skips those beside the slice.  There are two
iterators over the cells of a chunk: `SliceChunkIterator` tries every position, and
`SimpleSliceChunkIterator`, made when all sliced dimensions have chunk interval 1, shows
all cells of the input chunk.

Main results:

- Theorem {lit}`cells_enumerates`: the general chunk iterator shows the cells on the slice.
- Theorem {lit}`nextAvailable_visits`: the infinite array iterator visits the chunks of
  the slice.
- Theorem {lit}`moveNext_enumerates`: where the finite array iterator goes on to from any
  position.
-/

namespace SciDB.Operators.Slice

open SciDB.Distribution Odometer OrderedMap Iteration List DimensionDesc

/-! ## The slice and the input -/

/-- A dimension of the input and its coordinate of the slice, if it is sliced.
`PhysicalSlice::execute` refuses a slice outside of the bounds. -/
structure Axis where
  input : DimensionDesc
  overlap : Int
  slice : Option Int
  overlap_nonneg : 0 ≤ overlap
  slice_mem : ∀ s, slice = some s → input.startMin ≤ s ∧ s ≤ input.endMax

namespace Axis

/-- A chunk along the dimension starts at `c`; this is the first coordinate of its
cells. -/
def firstPosition (a : Axis) (withOverlap : Bool) (c : Int) : Int :=
  if withOverlap then max (c - a.overlap) a.input.startMin else c

def lastPosition (a : Axis) (withOverlap : Bool) (c : Int) : Int :=
  if withOverlap then min (c + a.input.chunkInterval - 1 + a.overlap) a.input.endMax
  else min (c + a.input.chunkInterval - 1) a.input.endMax

end Axis

/-- The dimensions of the input. -/
def dims (axes : List Axis) : List DimensionDesc :=
  axes.map Axis.input

/-- A cell of the chunk at a position, with or without its overlap. -/
def inArea (withOverlap : Bool) : List Axis → Coordinates → Coordinates → Bool
  | a :: axes, c :: cs, x :: xs =>
    decide (a.firstPosition withOverlap c ≤ x ∧ x ≤ a.lastPosition withOverlap c) &&
      inArea withOverlap axes cs xs
  | [], [], [] => true
  | _, _, _ => false

/-- The non-empty cells of a chunk, those of the overlap included. -/
abbrev Chunk (V : Type) := OrdMap Coordinates V

/-- One attribute of the input array. -/
structure InputArray (axes : List Axis) (V : Type) where
  chunks : OrdMap Coordinates (Chunk V)
  isChunkPosition : ∀ c ∈ chunks.entries, IsChunkPosition (dims axes) c.1
  cells_in : ∀ c ∈ chunks.entries, ∀ e ∈ c.2.entries, inArea true axes c.1 e.1

/-- `SliceArray`: not all dimensions are sliced. -/
structure SliceArray (V : Type) where
  axes : List Axis
  input : InputArray axes V
  exists_free : ∃ a ∈ axes, a.slice = none

/-- The cells that an iterator over an input chunk visits; the mode is
`IGNORE_OVERLAPS` or not. -/
def visibleCells {V : Type} (axes : List Axis) (ignoreOverlaps : Bool)
    (c : Coordinates × Chunk V) : List (Coordinates × V) :=
  c.2.entries.filter fun e => !ignoreOverlaps || inArea false axes c.1 e.1

/-- `mapPos` drops the sliced coordinates. -/
def mapPos : List Axis → Coordinates → Coordinates
  | a :: axes, x :: xs =>
    match a.slice with
    | none => x :: mapPos axes xs
    | some _ => mapPos axes xs
  | _, _ => []

/-- The loop of `setPosition`: the free coordinates are set, the others are those of
the slice. -/
def inPosOf : List Axis → Coordinates → Coordinates
  | [], _ => []
  | a :: axes, pos =>
    match a.slice with
    | some s => s :: inPosOf axes pos
    | none =>
      match pos with
      | x :: pos => x :: inPosOf axes pos
      | [] => []

variable {a : Axis} {first last x : Int} {axes : List Axis} {c : Coordinates} {d : DimensionDesc}

theorem inPosOf_sliced {s : Int} (h : a.slice = some s) (axes : List Axis) (pos : Coordinates) :
    inPosOf (a :: axes) pos = s :: inPosOf axes pos := by
  simp [inPosOf, h]

theorem inPosOf_free (h : a.slice = none) (axes : List Axis) (x : Int) (pos : Coordinates) :
    inPosOf (a :: axes) (x :: pos) = x :: inPosOf axes pos := by
  simp [inPosOf, h]

/-- A position on the slice. -/
def onSlice : List Axis → Coordinates → Bool
  | a :: axes, x :: xs =>
    (match a.slice with
      | none => true
      | some s => decide (x = s)) && onSlice axes xs
  | _, _ => true

/-- A dimension whose coordinate the loops leave alone. -/
def fixed (s : Int) : Digit Fault Int where
  first := s
  next _ := .ok none
  rank _ := 0
  rank_lt := by
    intro x y h
    cases h

/-- `mask >> i` is not defined from 64 on.  The loops over the dimensions that use it
start with the last dimension. -/
def checkShift {α : Type} (axes : List Axis) (k : Except Fault α) : Except Fault α :=
  require (axes.length ≤ 64) .outOfRange k

/-- The loops of the `restart` functions: the last free dimension is set one step back
and all others to their first values. -/
def stepBack {ι : Type} (free : ι → Bool) (first : ι → Int) (back : ι → Except Fault Int) :
    List ι → Except Fault Coordinates
  | [] => .ok []
  | i :: is =>
    if free i && is.all (fun j => !free j) then do
      let x ← back i
      return x :: is.map first
    else (stepBack free first back is).map (first i :: ·)

variable {V ι : Type} (S : SliceArray V) {before : Coordinates} {free : ι → Bool} {is : List ι}

namespace SliceArray

/-! ## The chunk iterators -/

/-- A coordinate of a cell in `SliceChunkIterator`. -/
def cellDigit (withOverlap : Bool) (e : Axis × Int) : Digit Fault Int :=
  match e.1.slice with
  | some s => fixed s
  | none => {
      first := e.1.firstPosition withOverlap e.2
      next := fun x =>
        .ok (if x + 1 ≤ e.1.lastPosition withOverlap e.2 then some (x + 1) else none)
      rank := fun x => (e.1.lastPosition withOverlap e.2 - x).toNat
      rank_lt := by
        intro x y h
        rw [Except.ok.injEq] at h
        split at h
        · cases h
          omega
        · cases h }

variable (ignoreOverlaps : Bool)

def cellDigits (c : Coordinates) : List (Digit Fault Int) :=
  (S.axes.zip c).map (cellDigit !ignoreOverlaps)

/-- The loop of `SliceChunkIterator::moveNext`; `inputIterator->setPosition` succeeds at
the non-empty cells. -/
def searchCell (ignoreOverlaps : Bool) (c : Coordinates × Chunk V) (inPos : Coordinates) :
    Except Fault (Option Coordinates) :=
  match _hturn : advance (S.cellDigits ignoreOverlaps c.1) inPos with
  | .error e => .error e
  | .ok none => .ok none
  | .ok (some pos) =>
    if ((visibleCells S.axes ignoreOverlaps c).map Prod.fst).contains pos then .ok (some pos)
    else searchCell ignoreOverlaps c pos
termination_by rank (S.cellDigits ignoreOverlaps c.1) inPos
decreasing_by exact advance_rank _hturn

/-- `SliceChunkIterator::operator++` -/
def nextCell (c : Coordinates × Chunk V) (inPos : Coordinates) :
    Except Fault (Option Coordinates) :=
  checkShift S.axes (S.searchCell ignoreOverlaps c inPos)

/-- `SliceChunkIterator::restart` -/
def restartCells (c : Coordinates × Chunk V) :
    Except Fault (Option Coordinates) :=
  checkShift S.axes do
    let inPos ← stepBack (fun e => e.1.slice.isNone)
      (fun e => (cellDigit (!ignoreOverlaps) e).first)
      (fun e => .ok (e.1.firstPosition (!ignoreOverlaps) e.2 - 1)) (S.axes.zip c.1)
    S.nextCell ignoreOverlaps c inPos

/-- The position and the value that a chunk iterator shows at a position of the input. -/
def showCell (c : Coordinates × Chunk V) (inPos : Coordinates) : Coordinates × Option V :=
  (mapPos S.axes inPos, c.2.get inPos)

/-- All that `SimpleSliceChunkIterator` shows. -/
def simpleCells (c : Coordinates × Chunk V) :
    List (Coordinates × Option V) :=
  (visibleCells S.axes ignoreOverlaps c).map fun e => S.showCell c e.1

/-- `SliceArray::simple` -/
def simple : Bool :=
  S.axes.all fun a => a.slice.isNone || decide (a.input.chunkInterval = 1)

/-! ## The finite array iterator -/

/-- `inputIterator->setPosition` and the chunk that it selects. -/
def chunkAt (inPos : Coordinates) : Option (Coordinates × Chunk V) :=
  let c := getChunkPositionFor (dims S.axes) inPos
  (S.input.chunks.get c).map fun chunk => (c, chunk)

def chunkDigit (a : Axis) : Digit Fault Int :=
  match a.slice with
  | some s => fixed s
  | none => a.input.digit

/-- The loop of `SliceArrayIterator::moveNext` -/
def searchChunk (inPos : Coordinates) : Except Fault (Option Coordinates) :=
  match _hturn : advance (S.axes.map chunkDigit) inPos with
  | .error e => .error e
  | .ok none => .ok none
  | .ok (some pos) => if (S.chunkAt pos).isSome then .ok (some pos) else searchChunk pos
termination_by rank (S.axes.map chunkDigit) inPos
decreasing_by exact advance_rank _hturn

/-- `SliceArrayIterator::operator++` -/
def moveNext (inPos : Coordinates) : Except Fault (Option Coordinates) :=
  checkShift S.axes (S.searchChunk inPos)

/-- `SliceArrayIterator::restart` -/
def restart : Except Fault (Option Coordinates) := do
  let inPos ← stepBack (fun a => a.slice.isNone) (fun a => (chunkDigit a).first)
    (fun a => int64 (a.input.startMin - a.input.chunkInterval)) S.axes
  S.moveNext inPos

/-! ## The infinite array iterator -/

/-- The test of `nextAvailable` whether a chunk meets the slice. -/
def meets : List Axis → Coordinates → Except Fault Bool
  | a :: axes, c :: cs =>
    match a.slice with
    | none => meets axes cs
    | some s =>
      if c > s then .ok false
      else do
        let next ← int64 (c + a.input.chunkInterval)
        if next ≤ s then return false else meets axes cs
  | _, _ => .ok true

/-- `nextAvailable`; the input iterator is given by the chunks from its position on. -/
def nextAvailable : List (Coordinates × Chunk V) →
    Except Fault (List (Coordinates × Chunk V))
  | [] => .ok []
  | c :: rest => do
      if ← meets S.axes c.1 then return c :: rest else nextAvailable rest

/-- The constructor and `restart` of `InfiniteSliceArrayIterator` -/
def infiniteRestart : Except Fault (List (Coordinates × Chunk V)) :=
  S.nextAvailable S.input.chunks.entries

/-- `InfiniteSliceArrayIterator::operator++` -/
def infiniteNext (s : List (Coordinates × Chunk V)) :
    Except Fault (List (Coordinates × Chunk V)) :=
  S.nextAvailable s.tail

/-- `InfiniteSliceArrayIterator::setPosition`, if there is a chunk. -/
def infiniteSetPosition (pos : Coordinates) : Option (List (Coordinates × Chunk V)) :=
  (S.chunkAt (inPosOf S.axes pos)).map fun c => S.input.chunks.seek c.1

end SliceArray

open SliceArray (chunkDigit)

/-! ## Before the first position -/

theorem advance_fixed {ds : List (Digit Fault Int)} (h : ∀ d ∈ ds, d.next d.first = .ok none) :
    advance ds (ds.map Digit.first) = .ok none := by
  induction ds with
  | nil => rfl
  | cons d ds ih =>
    rw [forall_mem_cons] at h
    rw [map_cons, advance, ih h.2, h.1]
    rfl

/-- The loop succeeds if the step back in the last free dimension does. -/
theorem stepBack_ok_iff {first : ι → Int}
    {back : ι → Except Fault Int} :
    (∃ before, stepBack free first back is = .ok before) ↔
      ∀ front i rest, is = front ++ i :: rest → free i → (∀ j ∈ rest, free j = false) →
        ∃ x, back i = .ok x := by
  induction is with
  | nil =>
    constructor
    · intro _ front i rest h
      simp at h
    · intro _
      exact ⟨[], rfl⟩
  | cons i is ih =>
    rw [stepBack]
    split
    · rename_i hlast
      rw [Bool.and_eq_true, all_eq_true] at hlast
      have hnone : ∀ j ∈ is, free j = false := fun j hj => by simpa using hlast.2 j hj
      constructor
      · rintro ⟨before, h⟩ front i' rest hsplit hfree _
        rcases bind_eq_ok.mp h with ⟨x, hx, -⟩
        cases front with
        | nil =>
          rw [nil_append, List.cons.injEq] at hsplit
          exact ⟨x, hsplit.1 ▸ hx⟩
        | cons k front =>
          rw [cons_append, List.cons.injEq] at hsplit
          rw [hnone i' (by simp [hsplit.2])] at hfree
          cases hfree
      · intro h
        rcases h [] i is rfl hlast.1 hnone with ⟨x, hx⟩
        exact ⟨_, bind_eq_ok.mpr ⟨x, hx, rfl⟩⟩
    · rename_i hlast
      have hmap : (∃ before, (stepBack free first back is).map (first i :: ·) = .ok before) ↔
          ∃ before, stepBack free first back is = .ok before := by
        cases stepBack free first back is with
        | error e => simp [Except.map]
        | ok before => simp [Except.map]
      rw [hmap, ih]
      constructor
      · intro h front i' rest hsplit hfree hrest
        cases front with
        | nil =>
          rcases hsplit with ⟨rfl, rfl⟩
          exact absurd (by simpa [hfree] using hrest) hlast
        | cons k front =>
          rw [cons_append, List.cons.injEq] at hsplit
          exact h front i' rest hsplit.2 hfree hrest
      · intro h front i' rest hsplit
        exact h (i :: front) i' rest (by rw [hsplit]; rfl)

/-- Moving on from one step back gives the first position. -/
theorem advance_stepBack {back : ι → Except Fault Int}
    {digit : ι → Digit Fault Int}
    (hfixed : ∀ i ∈ is, free i = false → (digit i).next (digit i).first = .ok none)
    (hback : ∀ i ∈ is, free i → ∀ x, back i = .ok x → (digit i).next x = .ok (some (digit i).first))
    (hfree : ∃ i ∈ is, free i)
    (h : stepBack free (fun i => (digit i).first) back is = .ok before) :
    advance (is.map digit) before = .ok (some ((is.map digit).map Digit.first)) := by
  induction is generalizing before with
  | nil =>
    rcases hfree with ⟨i, hi, -⟩
    cases hi
  | cons i is ih =>
    rw [forall_mem_cons] at hfixed hback
    rw [stepBack] at h
    split at h
    · rename_i hlast
      rw [Bool.and_eq_true, all_eq_true] at hlast
      rcases bind_eq_ok.mp h with ⟨x, hx, hret⟩
      cases hret
      have hrest : advance (is.map digit) (is.map fun i => (digit i).first) = .ok none := by
        have hends : ∀ d ∈ is.map digit, d.next d.first = .ok none := by
          intro d hd
          rcases mem_map.mp hd with ⟨j, hj, rfl⟩
          exact hfixed.2 j hj (by simpa using hlast.2 j hj)
        have := advance_fixed hends
        rwa [map_map] at this
      rw [map_cons, advance, hrest, hback.1 hlast.1 x hx]
      rfl
    · rename_i hlast
      have hrestfree : ∃ j ∈ is, free j := by
        by_contra hnone
        apply hlast
        rcases hfree with ⟨j, hj, hjfree⟩
        rcases mem_cons.mp hj with rfl | hj
        · rw [hjfree, Bool.true_and, all_eq_true]
          intro k hk
          by_contra hk'
          exact hnone ⟨k, hk, by simpa using hk'⟩
        · exact (hnone ⟨j, hj, hjfree⟩).elim
      rcases bind_eq_ok.mp h with ⟨rest, hb, h⟩
      cases h
      rw [map_cons, advance, ih hfixed.2 hback.2 hrestfree hb]
      rfl

/-! ## The cells of a chunk -/

/-- The coordinates from one to another. -/
def interval (first last : Int) : List Int :=
  (List.range (last + 1 - first).toNat).map fun k : Nat => first + k

theorem mem_interval : x ∈ interval first last ↔ first ≤ x ∧ x ≤ last := by
  rw [interval, mem_map]
  constructor
  · rintro ⟨k, hk, rfl⟩
    rw [mem_range] at hk
    omega
  · intro hx
    exact ⟨(x - first).toNat, by rw [mem_range]; omega, by omega⟩

theorem interval_pairwise (first last : Int) : (interval first last).Pairwise (· < ·) := by
  rw [interval, pairwise_map]
  exact pairwise_lt_range.imp fun h => by omega

/-- Counting up enumerates an interval. -/
theorem enumerates_interval (h : first ≤ last) :
    Enumerates (fun x => (.ok (if x + 1 ≤ last then some (x + 1) else none) :
      Except Fault (Option Int))) (.ok (some first)) (interval first last) := by
  obtain ⟨n, rfl⟩ : ∃ n : Nat, last = first + n := ⟨(last - first).toNat, by omega⟩
  rw [interval, show (first + n + 1 - first).toNat = n + 1 by omega, range_succ_eq_map, map_cons,
    map_map, Nat.cast_zero, add_zero]
  refine .more (enumerates_range (f := fun k : Nat => first + k) (by simp) ?_ ?_)
  · intro k hk
    rw [if_pos (by omega), Nat.cast_succ, Int.add_assoc]
  · rw [if_neg (by omega)]

/-- The values of a coordinate of a cell. -/
def cellValues (withOverlap : Bool) (e : Axis × Int) : List Int :=
  match e.1.slice with
  | some s => [s]
  | none => interval (e.1.firstPosition withOverlap e.2) (e.1.lastPosition withOverlap e.2)

theorem enumerates_fixed (s : Int) : Enumerates (fixed s).next (.ok (some (fixed s).first)) [s] :=
  .more .done

theorem Axis.first_le_last {c : Int} (h : a.input.IsChunkStart c) (withOverlap : Bool) :
    a.firstPosition withOverlap c ≤ a.lastPosition withOverlap c := by
  have hpos := a.input.interval_pos
  have hoverlap := a.overlap_nonneg
  rcases h with ⟨hstart, hend, -⟩
  unfold Axis.firstPosition Axis.lastPosition
  split <;> omega

theorem cellDigit_enumerates {c : Int} (h : a.input.IsChunkStart c) (withOverlap : Bool) :
    Enumerates (SliceArray.cellDigit withOverlap (a, c)).next
      (.ok (some (SliceArray.cellDigit withOverlap (a, c)).first))
      (cellValues withOverlap (a, c)) := by
  unfold SliceArray.cellDigit cellValues
  cases a.slice with
  | some s => exact enumerates_fixed s
  | none => exact enumerates_interval (a.first_le_last h withOverlap)

theorem cellValues_pairwise (withOverlap : Bool) (e : Axis × Int) :
    (cellValues withOverlap e).Pairwise (· < ·) := by
  unfold cellValues
  split
  · exact pairwise_singleton _ _
  · exact interval_pairwise _ _

/-- Inside of the area of the chunk, the odometer tries the positions on the slice. -/
theorem mem_cells_iff {withOverlap : Bool} {x : Coordinates} (h : inArea withOverlap axes c x) :
    x ∈ rowMajor ((axes.zip c).map (cellValues withOverlap)) ↔ onSlice axes x := by
  rw [mem_rowMajor, forall₂_map_left_iff]
  induction axes generalizing c x with
  | nil =>
    cases c <;> cases x <;> simp_all [inArea, onSlice]
  | cons a axes ih =>
    cases c with
    | nil => cases x <;> cases h
    | cons c cs =>
      cases x with
      | nil => cases h
      | cons x xs =>
        rw [inArea, Bool.and_eq_true] at h
        rw [zip_cons_cons, forall₂_cons, ih h.2, onSlice, Bool.and_eq_true]
        apply and_congr_left
        intro _
        unfold cellValues
        cases a.slice with
        | some s => simp
        | none => simpa [mem_interval] using h.1

theorem checkShift_of_le {α : Type} (h : axes.length ≤ 64) (k : Except Fault α) :
    checkShift axes k = k :=
  require_pos h _ k

namespace SliceArray

variable {S} {c : Coordinates × Chunk V} {ignoreOverlaps withOverlap : Bool} {e : Axis × Int}

theorem searchCell_isSearch :
    IsSearch (advance (S.cellDigits ignoreOverlaps c.1))
      (fun pos => .ok (((visibleCells S.axes ignoreOverlaps c).map Prod.fst).contains pos))
      (S.searchCell ignoreOverlaps c) := by
  intro inPos
  rw [searchCell]
  split
  · rename_i e h
    simp [h]
  · rename_i h
    simp [h]
  · rename_i pos h
    simp only [h]
    cases ((visibleCells S.axes ignoreOverlaps c).map Prod.fst).contains pos <;> rfl

/-- The visible cells are in the area of the mode. -/
theorem inArea_of_visible (hc : c ∈ S.input.chunks.entries) {e : Coordinates × V}
    (he : e ∈ visibleCells S.axes ignoreOverlaps c) : inArea (!ignoreOverlaps) S.axes c.1 e.1 := by
  rw [visibleCells, mem_filter] at he
  cases ignoreOverlaps with
  | false => exact S.input.cells_in c hc e he.1
  | true => simpa using he.2

theorem forall_zip_isChunkStart (hc : c ∈ S.input.chunks.entries) :
    ∀ e ∈ S.axes.zip c.1, e.1.input.IsChunkStart e.2 := by
  have h := S.input.isChunkPosition c hc
  rw [IsChunkPosition, dims, forall₂_map_left_iff, forall₂_iff_zip] at h
  exact fun e he => h.2 he

theorem cellDigit_fixed (h : e.1.slice.isNone = false) :
    (cellDigit withOverlap e).next (cellDigit withOverlap e).first = .ok none := by
  unfold cellDigit
  cases hs : e.1.slice with
  | some s => rfl
  | none => simp [hs] at h

theorem cellDigit_back (hstart : e.1.input.IsChunkStart e.2) (h : e.1.slice.isNone) :
    (cellDigit withOverlap e).next (e.1.firstPosition withOverlap e.2 - 1) =
      .ok (some (cellDigit withOverlap e).first) := by
  have hle := e.1.first_le_last hstart withOverlap
  rw [cellDigit, Option.isNone_iff_eq_none.mp h]
  dsimp only
  rw [Int.sub_add_cancel, if_pos hle]

theorem exists_free_zip (hc : c ∈ S.input.chunks.entries) :
    ∃ e ∈ S.axes.zip c.1, e.1.slice.isNone := by
  rcases S.exists_free with ⟨a, ha, hfree⟩
  have hlen := (S.input.isChunkPosition c hc).length_eq
  rw [dims, length_map] at hlen
  rcases mem_iff_getElem.mp ha with ⟨i, hi, rfl⟩
  refine ⟨(S.axes[i], c.1[i]), ?_, by rw [hfree]; rfl⟩
  rw [← getElem_zip (h := by rw [length_zip]; omega)]
  exact getElem_mem _

/-- The positions that the general chunk iterator shows are those of the visible cells on
the slice. -/
theorem cells_enumerates (hlen : S.axes.length ≤ 64) (hc : c ∈ S.input.chunks.entries) :
    Enumerates (S.nextCell ignoreOverlaps c) (S.restartCells ignoreOverlaps c)
      (((visibleCells S.axes ignoreOverlaps c).filter fun e => onSlice S.axes e.1).map
        Prod.fst) := by
  have hstarts := forall_zip_isChunkStart hc
  have hbefore : ∃ before, stepBack (fun e => e.1.slice.isNone)
      (fun e => (cellDigit (!ignoreOverlaps) e).first)
      (fun e => .ok (e.1.firstPosition (!ignoreOverlaps) e.2 - 1)) (S.axes.zip c.1) = .ok before :=
    stepBack_ok_iff.mpr fun _ _ _ _ _ _ => ⟨_, rfl⟩
  rcases hbefore with ⟨before, hbefore⟩
  have hnext : S.nextCell ignoreOverlaps c = S.searchCell ignoreOverlaps c := by
    funext inPos
    exact checkShift_of_le hlen _
  have hrestart : S.restartCells ignoreOverlaps c = S.searchCell ignoreOverlaps c before := by
    rw [restartCells, checkShift_of_le hlen, hbefore, hnext]
    rfl
  have hfirst : advance (S.cellDigits ignoreOverlaps c.1) before =
      .ok (some ((S.cellDigits ignoreOverlaps c.1).map Digit.first)) := by
    apply advance_stepBack _ _ _ hbefore
    · intro e _ hsliced
      exact cellDigit_fixed hsliced
    · intro e he hfree x hx
      cases hx
      exact cellDigit_back (hstarts e he) hfree
    · exact exists_free_zip hc
  have hadvance : Enumerates (advance (S.cellDigits ignoreOverlaps c.1))
      (advance (S.cellDigits ignoreOverlaps c.1) before)
      (rowMajor ((S.axes.zip c.1).map (cellValues !ignoreOverlaps))) := by
    rw [hfirst]
    apply advance_enumerates
    rw [cellDigits, forall₂_map_left_iff, forall₂_map_right_iff, forall₂_same]
    exact fun e he => cellDigit_enumerates (hstarts e he) _
  have hsearch := hadvance.filter_search searchCell_isSearch
    (fun pos => ((visibleCells S.axes ignoreOverlaps c).map Prod.fst).contains pos)
    (fun _ _ => rfl)
  have hlist : (rowMajor ((S.axes.zip c.1).map (cellValues !ignoreOverlaps))).filter
      (fun pos => ((visibleCells S.axes ignoreOverlaps c).map Prod.fst).contains pos) =
      ((visibleCells S.axes ignoreOverlaps c).filter fun e => onSlice S.axes e.1).map Prod.fst := by
    apply List.Pairwise.eq_of_mem_iff (r := fun x y : Coordinates => x < y)
    · apply List.Pairwise.filter
      apply rowMajor_pairwise
      intro l hl
      rcases mem_map.mp hl with ⟨e, -, rfl⟩
      exact cellValues_pairwise _ e
    · rw [pairwise_map]
      exact c.2.sorted.sublist (filter_sublist.trans filter_sublist)
    · intro x
      simp only [mem_filter, contains_iff_mem, mem_map]
      constructor
      · rintro ⟨hx, e, he, rfl⟩
        exact ⟨e, ⟨he, (mem_cells_iff (inArea_of_visible hc he)).mp hx⟩, rfl⟩
      · rintro ⟨e, ⟨he, hslice⟩, rfl⟩
        exact ⟨(mem_cells_iff (inArea_of_visible hc he)).mpr hslice, e, he, rfl⟩
  rw [hnext, hrestart, ← hlist]
  exact hsearch

end SliceArray

/-! ## The chunks of the slice -/

/-- A chunk with positions on the slice. -/
def meetsSlice : List Axis → Coordinates → Bool
  | a :: axes, c :: cs =>
    (match a.slice with
      | none => true
      | some s => decide (c ≤ s ∧ s < c + a.input.chunkInterval)) && meetsSlice axes cs
  | _, _ => true

/-- The test of the infinite iterator does not overflow: where a chunk starts at or before
the slice, its end is a 64-bit number. -/
def TestFits : List Axis → Coordinates → Prop
  | a :: axes, c :: cs =>
    match a.slice with
    | none => TestFits axes cs
    | some s => c ≤ s → c + a.input.chunkInterval < 2 ^ 63 ∧
        (s < c + a.input.chunkInterval → TestFits axes cs)
  | _, _ => True

theorem meets_eq (hc : IsChunkPosition (dims axes) c) (h : TestFits axes c) :
    SliceArray.meets axes c = .ok (meetsSlice axes c) := by
  induction axes generalizing c with
  | nil =>
    rfl
  | cons a axes ih =>
    cases hc with
    | @cons _ x _ xs hx hxs =>
      rw [TestFits] at h
      rw [SliceArray.meets, meetsSlice]
      cases hs : a.slice with
      | none =>
        rw [hs] at h
        simpa using ih hxs h
      | some s =>
        rw [hs] at h
        dsimp only at h ⊢
        by_cases hle : x ≤ s
        · have hmin := a.input.getMin_le
          have hpos := a.input.interval_pos
          have hstart := hx.1
          rw [if_neg (by omega), int64_of_mem ⟨by omega, (h hle).1⟩]
          by_cases hlt : s < x + a.input.chunkInterval
          · simp only [hle, hlt, and_self, decide_true, Bool.true_and]
            rw [← ih hxs ((h hle).2 hlt)]
            exact if_neg (by omega)
          · simp only [hlt, and_false]
            exact if_pos (by omega)
        · simp [hle]

theorem testFits_of_meets {b : Bool} (h : SliceArray.meets axes c = .ok b) : TestFits axes c := by
  induction axes generalizing c with
  | nil => trivial
  | cons a axes ih =>
    cases c with
    | nil => trivial
    | cons x xs =>
      rw [SliceArray.meets] at h
      rw [TestFits]
      cases hs : a.slice with
      | none =>
        rw [hs] at h
        exact ih h
      | some s =>
        rw [hs] at h
        dsimp only at h ⊢
        intro hle
        rw [if_neg (by omega)] at h
        rcases bind_eq_ok.mp h with ⟨next, hnext, hrest⟩
        rw [int64] at hnext
        split at hnext
        · rename_i hmem
          cases hnext
          refine ⟨hmem.2, fun hlt => ?_⟩
          rw [if_neg (by omega)] at hrest
          exact ih hrest
        · cases hnext

namespace SliceArray

variable {S} {l : List (Coordinates × Chunk V)}

/-- The infinite array iterator visits the chunks of the slice. -/
theorem nextAvailable_visits (hpos : ∀ c ∈ l, IsChunkPosition (dims S.axes) c.1)
    (h : ∀ c ∈ l, TestFits S.axes c.1) :
    ∃ s, S.nextAvailable l = .ok s ∧
      Visits List.head? S.infiniteNext s (l.filter fun c => meetsSlice S.axes c.1) := by
  induction l with
  | nil => exact ⟨[], rfl, .done rfl⟩
  | cons c l ih =>
    rw [forall_mem_cons] at hpos h
    rcases ih hpos.2 h.2 with ⟨s, hs, hvisits⟩
    rw [nextAvailable, meets_eq hpos.1 h.1]
    cases hmeets : meetsSlice S.axes c.1 with
    | true =>
      refine ⟨c :: l, rfl, ?_⟩
      rw [filter_cons_of_pos (by simpa using hmeets)]
      exact .more rfl hs hvisits
    | false =>
      refine ⟨s, hs, ?_⟩
      rw [filter_cons_of_neg (by simp [hmeets])]
      exact hvisits

/-- To reach its end the infinite array iterator has to test all chunks. -/
theorem testFits_of_visits {s l' : List (Coordinates × Chunk V)} (hs : S.nextAvailable l = .ok s)
    (h : Visits List.head? S.infiniteNext s l') : ∀ c ∈ l, TestFits S.axes c.1 := by
  induction l generalizing s l' with
  | nil => exact fun c hc => absurd hc not_mem_nil
  | cons c l ih =>
    rw [forall_mem_cons]
    rcases bind_eq_ok.mp hs with ⟨b, hb, hrest⟩
    refine ⟨testFits_of_meets hb, ?_⟩
    cases b with
    | false => exact ih hrest h
    | true =>
      cases hrest
      cases h with
      | done hnone => cases hnone
      | more hx hnext hvisits => exact ih hnext hvisits

end SliceArray
/-! ## Going on from any coordinate -/

/-- The coordinates that are reached from one in steps of a chunk. -/
def stepsFrom (d : DimensionDesc) (x : Int) : List Int :=
  (List.range ((d.endMax - x) / d.chunkInterval).toNat).map fun k : Nat =>
    x + (k + 1) * d.chunkInterval

theorem lt_steps_iff {k : Nat} : k < ((d.endMax - x) / d.chunkInterval).toNat ↔
    x + (k + 1) * d.chunkInterval ≤ d.endMax := by
  have hle := Int.le_ediv_iff_mul_le (a := (k : Int) + 1) (b := d.endMax - x) d.interval_pos
  constructor
  · intro hk
    omega
  · intro hk
    omega

theorem mem_stepsFrom {y : Int} :
    y ∈ stepsFrom d x ↔ ∃ k : Nat, y = x + (k + 1) * d.chunkInterval ∧ y ≤ d.endMax := by
  rw [stepsFrom, mem_map]
  constructor
  · rintro ⟨k, hk, rfl⟩
    exact ⟨k, rfl, lt_steps_iff.mp (mem_range.mp hk)⟩
  · rintro ⟨k, rfl, hk⟩
    exact ⟨k, mem_range.mpr (lt_steps_iff.mpr hk), rfl⟩

theorem stepsFrom_pairwise (d : DimensionDesc) (x : Int) : (stepsFrom d x).Pairwise (· < ·) := by
  rw [stepsFrom, pairwise_map]
  refine pairwise_lt_range.imp fun {j k} h => ?_
  have := Int.mul_lt_mul_of_pos_right (show (j : Int) + 1 < k + 1 by omega) d.interval_pos
  omega

/-- The increment enumerates them, if no sum past the end overflows. -/
theorem step_enumerates_from (hlo : -2 ^ 63 ≤ x) (hx : x ≤ d.endMax)
    (h : d.endMax + d.chunkInterval < 2 ^ 63) :
    Enumerates d.step (d.step x) (stepsFrom d x) := by
  have hle : ∀ k ≤ ((d.endMax - x) / d.chunkInterval).toNat,
      x + k * d.chunkInterval ≤ d.endMax := by
    intro k hk
    cases k with
    | zero => simpa using hx
    | succ k => exact_mod_cast lt_steps_iff.mp hk
  have hstep : ∀ k ≤ ((d.endMax - x) / d.chunkInterval).toNat, d.step (x + k * d.chunkInterval) =
      .ok (if x + (k + 1) * d.chunkInterval > d.endMax then none
        else some (x + (k + 1) * d.chunkInterval)) := by
    intro k hk
    have hge := Int.mul_nonneg (show (0 : Int) ≤ k by omega) d.interval_pos.le
    have := hle k hk
    rw [step_of_lt (by omega) (by omega), add_mul, one_mul, Int.add_assoc]
  refine enumerates_range (f := fun k : Nat => x + k * d.chunkInterval) (by simp) ?_ ?_
  · intro k hk
    rw [hstep k hk.le, if_neg (not_lt.mpr (lt_steps_iff.mp hk))]
    rfl
  · rw [hstep _ le_rfl, if_pos (not_le.mp fun h => lt_irrefl _ (lt_steps_iff.mpr h))]

/-- Conversely, from a coordinate that leads to the end of the dimension the sum past the
end is computed. -/
theorem fits_of_enumerates {t : List Int} (hx : x ≤ d.endMax)
    (hdvd : d.chunkInterval ∣ d.endMax - x) (h : Enumerates d.step (d.step x) t) :
    d.endMax + d.chunkInterval < 2 ^ 63 := by
  induction t generalizing x with
  | nil =>
    rcases step_ok (enumerates_nil.mp h) with ⟨hlt, hnone⟩
    by_cases heq : x = d.endMax
    · exact heq ▸ hlt
    · have hle := Int.le_of_dvd (by omega) hdvd
      rw [if_neg (by omega)] at hnone
      cases hnone
  | cons y t ih =>
    rcases enumerates_cons.mp h with ⟨hstep, hrest⟩
    rcases step_ok hstep with ⟨-, hsome⟩
    split at hsome
    · cases hsome
    · cases hsome
      refine ih (by omega) ?_ hrest
      rw [show d.endMax - (x + d.chunkInterval) = d.endMax - x - d.chunkInterval by ring]
      exact dvd_sub_self_right.mpr hdvd

/-! ## The finite array iterator -/

/-- The coordinates that the finite iterator tries in a dimension. -/
def chunkValues (a : Axis) : List Int :=
  match a.slice with
  | some s => [s]
  | none => a.input.chunkStarts

/-- The coordinates that it tries behind a given one. -/
def chunkTail (a : Axis) (x : Int) : List Int :=
  match a.slice with
  | some _ => []
  | none => stepsFrom a.input x

/-- A position inside of the bounds, with the sliced coordinates of the slice. -/
def Inside (axes : List Axis) (inPos : Coordinates) : Prop :=
  List.Forall₂ (fun a x => a.input.startMin ≤ x ∧ x ≤ a.input.endMax ∧
    ∀ s, a.slice = some s → x = s) axes inPos

theorem chunkDigit_enumerates
    (h : a.slice = none → a.input.lastChunkStart + a.input.chunkInterval < 2 ^ 63) :
    Enumerates (chunkDigit a).next (.ok (some (chunkDigit a).first)) (chunkValues a) := by
  unfold chunkDigit chunkValues
  cases hs : a.slice with
  | some s => exact enumerates_fixed s
  | none => exact step_enumerates (h hs)

theorem chunkDigit_enumerates_from (hmin : a.input.startMin ≤ x) (hmax : x ≤ a.input.endMax)
    (h : a.slice = none → a.input.endMax + a.input.chunkInterval < 2 ^ 63) :
    Enumerates (chunkDigit a).next ((chunkDigit a).next x) (chunkTail a x) := by
  have hlo := a.input.getMin_le
  unfold chunkDigit chunkTail
  cases hs : a.slice with
  | some s => exact .done
  | none => exact step_enumerates_from (by omega) hmax (h hs)

theorem chunkDigit_fixed (h : a.slice.isNone = false) :
    (chunkDigit a).next (chunkDigit a).first = .ok none := by
  unfold chunkDigit
  cases hs : a.slice with
  | some s => rfl
  | none => simp [hs] at h

theorem chunkDigit_back (h : a.slice.isNone)
    (hx : int64 (a.input.startMin - a.input.chunkInterval) = .ok x) :
    (chunkDigit a).next x = .ok (some (chunkDigit a).first) := by
  have hle := a.input.start_le_end
  have hmax := a.input.le_getMax
  rw [chunkDigit, Option.isNone_iff_eq_none.mp h]
  rw [int64] at hx
  split at hx
  · cases hx
    show a.input.step _ = _
    rw [step_of_lt (by omega) (by omega), Int.sub_add_cancel, if_neg (by omega)]
    rfl
  · cases hx

namespace SliceArray

variable {S} {inPos : Coordinates}

theorem searchChunk_isSearch :
    IsSearch (advance (S.axes.map chunkDigit)) (fun pos => .ok (S.chunkAt pos).isSome)
      S.searchChunk := by
  intro inPos
  rw [searchChunk]
  split
  · rename_i e h
    simp [h]
  · rename_i h
    simp [h]
  · rename_i pos h
    simp only [h]
    cases (S.chunkAt pos).isSome <;> rfl

theorem moveNext_eq (h : S.axes.length ≤ 64) : S.moveNext = S.searchChunk := by
  funext inPos
  exact checkShift_of_le h _

variable {l : List Coordinates}

/-- An iteration that reaches its end has not met an undefined shift. -/
theorem length_le_of_enumerates (h : Enumerates S.moveNext (S.moveNext inPos) l) :
    S.axes.length ≤ 64 := by
  rcases h.exists_ok with ⟨o, ho⟩
  exact (require_eq_ok.mp ho).1

/-- The positions that the finite iterator goes on to from any position. -/
theorem moveNext_enumerates (hlen : S.axes.length ≤ 64)
    (hlast : ∀ a ∈ S.axes, a.slice = none → a.input.lastChunkStart + a.input.chunkInterval < 2 ^ 63)
    (hend : ∀ a ∈ S.axes, a.slice = none → a.input.endMax + a.input.chunkInterval < 2 ^ 63)
    (hin : Inside S.axes inPos) :
    Enumerates S.moveNext (S.moveNext inPos)
      ((later chunkTail chunkValues S.axes inPos).filter fun q => (S.chunkAt q).isSome) := by
  rw [moveNext_eq hlen]
  apply Enumerates.filter_search searchChunk_isSearch _ _ fun _ _ => rfl
  apply advance_later fun a ha => chunkDigit_enumerates (hlast a ha)
  rw [Inside, forall₂_iff_zip] at hin
  rw [forall₂_iff_zip]
  refine ⟨hin.1, fun {a x} hx => ?_⟩
  have hax := hin.2 hx
  exact chunkDigit_enumerates_from hax.1 hax.2.1 (hend a (of_mem_zip hx).1)

theorem advance_before
    (h : stepBack (fun a => a.slice.isNone) (fun a => (chunkDigit a).first)
      (fun a => int64 (a.input.startMin - a.input.chunkInterval)) S.axes = .ok before) :
    advance (S.axes.map chunkDigit) before =
      .ok (some ((S.axes.map chunkDigit).map Digit.first)) := by
  apply advance_stepBack _ _ _ h
  · intro a _ hsliced
    exact chunkDigit_fixed hsliced
  · intro a _ hfree x hx
    exact chunkDigit_back hfree hx
  · rcases S.exists_free with ⟨a, ha, hfree⟩
    exact ⟨a, ha, by rw [hfree]; rfl⟩

/-- The step back of the last free dimension does not overflow. -/
def BackFits (axes : List Axis) : Prop :=
  ∀ front a rest, axes = front ++ a :: rest → a.slice = none → (∀ b ∈ rest, b.slice ≠ none) →
    -2 ^ 63 ≤ a.input.startMin - a.input.chunkInterval

theorem back_ok_iff : (∃ before, stepBack (fun a => a.slice.isNone)
      (fun a => (chunkDigit a).first)
      (fun a => int64 (a.input.startMin - a.input.chunkInterval)) S.axes = .ok before) ↔
    BackFits S.axes := by
  have hint : ∀ a : Axis, (∃ x, int64 (a.input.startMin - a.input.chunkInterval) = .ok x) ↔
      -2 ^ 63 ≤ a.input.startMin - a.input.chunkInterval := by
    intro a
    have hpos := a.input.interval_pos
    have hle := a.input.start_le_end
    have hmax := a.input.le_getMax
    rw [int64]
    split
    · rename_i h
      exact ⟨fun _ => h.1, fun _ => ⟨_, rfl⟩⟩
    · rename_i h
      refine ⟨fun hok => ?_, fun hmin => absurd ⟨hmin, by omega⟩ h⟩
      obtain ⟨x, hx⟩ := hok
      cases hx
  rw [stepBack_ok_iff, BackFits]
  simp [hint, Option.isSome_iff_ne_none]

/-- The positions of a whole iteration. -/
theorem restart_enumerates (hlen : S.axes.length ≤ 64) (hback : BackFits S.axes)
    (hlast : ∀ a ∈ S.axes, a.slice = none →
      a.input.lastChunkStart + a.input.chunkInterval < 2 ^ 63) :
    Enumerates S.moveNext S.restart
      ((rowMajor (S.axes.map chunkValues)).filter fun q => (S.chunkAt q).isSome) := by
  rcases back_ok_iff.mpr hback with ⟨before, hbefore⟩
  have hrestart : S.restart = S.searchChunk before := by
    rw [restart, hbefore, ← moveNext_eq hlen]
    rfl
  rw [hrestart, moveNext_eq hlen]
  apply Enumerates.filter_search searchChunk_isSearch _ _ fun _ _ => rfl
  rw [advance_before hbefore]
  apply advance_enumerates
  rw [forall₂_map_left_iff, forall₂_map_right_iff, forall₂_same]
  exact fun a ha => chunkDigit_enumerates (hlast a ha)

/-- An iteration that reaches its end has not met an overflow. -/
theorem fits_of_restart (h : Enumerates S.moveNext S.restart l) :
    S.axes.length ≤ 64 ∧ BackFits S.axes ∧ ∀ a ∈ S.axes, a.slice = none →
      a.input.lastChunkStart + a.input.chunkInterval < 2 ^ 63 := by
  rcases h.exists_ok with ⟨o, ho⟩
  rcases bind_eq_ok.mp ho with ⟨before, hbefore, hmove⟩
  have hrestart : S.restart = S.moveNext before := by
    rw [restart, hbefore]
    rfl
  have hlen : S.axes.length ≤ 64 := (require_eq_ok.mp hmove).1
  refine ⟨hlen, back_ok_iff.mp ⟨before, hbefore⟩, fun a ha hfree => ?_⟩
  rw [hrestart, moveNext_eq hlen] at h
  rcases h.of_search searchChunk_isSearch advance_rank with ⟨l', hl'⟩
  rw [advance_before hbefore] at hl'
  rcases digits_enumerate hl' _ (mem_map_of_mem ha) with ⟨t, ht⟩
  rw [chunkDigit, hfree] at ht
  exact lastChunkStart_lt ht

/-- The same from a position. -/
theorem end_fits_of_enumerates (hlen : S.axes.length = inPos.length)
    (h : Enumerates S.moveNext (S.moveNext inPos) l) {a : Axis} {x : Int}
    (hax : (a, x) ∈ S.axes.zip inPos) (hfree : a.slice = none) (hx : x ≤ a.input.endMax)
    (hdvd : a.input.chunkInterval ∣ a.input.endMax - x) :
    a.input.endMax + a.input.chunkInterval < 2 ^ 63 := by
  rw [moveNext_eq (length_le_of_enumerates h)] at h
  rcases h.of_search searchChunk_isSearch advance_rank with ⟨l', hl'⟩
  have hdigits := digits_enumerate_later hlen hl'
  rcases (forall₂_iff_zip.mp hdigits).2 hax with ⟨t, ht⟩
  rw [chunkDigit, hfree] at ht
  exact fits_of_enumerates hx hdvd ht

end SliceArray
end SciDB.Operators.Slice
