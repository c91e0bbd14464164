import SciDB.Operators.SubArray

/-!
# Arrays with overlap

A chunk of an array also keeps copies of the cells around it, up to the overlap of each
dimension and inside the bounds of the array.  Its first and last positions, with and
without the overlap, are set by `MemChunk::initialize` (`src/array/MemChunk.cpp`).

Main results:

- Theorem {lit}`inChunk_core_iff`: without the overlap, a chunk holds the positions that are
  rounded to its start.
-/

namespace SciDB.Operators

open SciDB.Distribution OrderedMap List

/-- A dimension and the overlap of its chunks. -/
structure Dimension extends DimensionDesc where
  chunkOverlap : Int
  overlap_nonneg : 0 ≤ chunkOverlap

namespace Dimension

/-- The first position of the chunk at `start` along the dimension. -/
def firstPosition (d : Dimension) (withOverlap : Bool) (start : Int) : Int :=
  if withOverlap then
    if start - d.chunkOverlap < d.startMin then d.startMin else start - d.chunkOverlap
  else start

/-- The last position of the chunk at `start` along the dimension. -/
def lastPosition (d : Dimension) (withOverlap : Bool) (start : Int) : Int :=
  let last := start + d.chunkInterval - 1
  let last := if withOverlap then last + d.chunkOverlap else last
  if d.endMax < last then d.endMax else last

end Dimension

/-- The dimensions without their overlap. -/
def descs (dims : List Dimension) : List DimensionDesc :=
  dims.map Dimension.toDimensionDesc

/-- `getFirstPosition` of the chunk at `start`. -/
def getFirstPosition (dims : List Dimension) (withOverlap : Bool) (start : Coordinates) :
    Coordinates :=
  List.zipWith (fun d x => d.firstPosition withOverlap x) dims start

/-- `getLastPosition` of the chunk at `start`. -/
def getLastPosition (dims : List Dimension) (withOverlap : Bool) (start : Coordinates) :
    Coordinates :=
  List.zipWith (fun d x => d.lastPosition withOverlap x) dims start

/-- A position between two corners. -/
def Within (first last pos : Coordinates) : Prop :=
  List.Forall₂ (· ≤ ·) first pos ∧ List.Forall₂ (· ≤ ·) pos last

instance (first last pos : Coordinates) : Decidable (Within first last pos) :=
  inferInstanceAs (Decidable (_ ∧ _))

/-- A position in the chunk at `start`. -/
def InChunk (dims : List Dimension) (withOverlap : Bool) (start pos : Coordinates) : Prop :=
  Within (getFirstPosition dims withOverlap start) (getLastPosition dims withOverlap start) pos

instance (dims : List Dimension) (withOverlap : Bool) (start pos : Coordinates) :
    Decidable (InChunk dims withOverlap start pos) :=
  inferInstanceAs (Decidable (Within _ _ _))

/-- A chunk: its cells in row-major order, with those in its overlap. -/
abbrev Chunk (R : Type) := OrdMap Coordinates R

/-- An array: the chunks of all attributes are at the same positions and their cells
where the empty bitmap has them.  `R` are the values of a cell.

`ConstArrayIterator::setPosition` selects the chunk that holds a position.  The iterators
of stored and of memory arrays round a position outside of the bounds as any other, those
of most operators refuse it: `roundsOutside`. -/
structure ChunkedArray (dims : List Dimension) (R : Type) where
  chunks : OrdMap Coordinates (Chunk R)
  roundsOutside : Coordinates → Bool
  isChunkPosition : ∀ c ∈ chunks.entries, IsChunkPosition (descs dims) c.1
  cells_in : ∀ c ∈ chunks.entries, ∀ e ∈ c.2.entries, InChunk dims true c.1 e.1

namespace ChunkedArray

variable {dims : List Dimension} {R : Type} (A : ChunkedArray dims R)

/-- The cell at a position, which is that of the chunk the position belongs to. -/
def cell (pos : Coordinates) : Option R :=
  (A.chunks.get (getChunkPositionFor (descs dims) pos)).bind fun chunk => chunk.get pos

/-- Whether `setPosition` succeeds; it then is at the chunk the position is rounded to. -/
def setPosition (pos : Coordinates) : Bool :=
  (contains (descs dims) pos || A.roundsOutside pos) &&
    (A.chunks.get (getChunkPositionFor (descs dims) pos)).isSome

/-- The chunks that one instance has. -/
def onInstance {ι : Type} [DecidableEq ι] (instanceOf : Coordinates → ι) (i : ι) :
    ChunkedArray dims R where
  chunks := A.chunks.filter fun c => instanceOf c = i
  roundsOutside := A.roundsOutside
  isChunkPosition := fun c hc => A.isChunkPosition c (mem_of_mem_filter hc)
  cells_in := fun c hc => A.cells_in c (mem_of_mem_filter hc)

end ChunkedArray

/-! ## The positions of a chunk -/

section Positions

variable {dims : List Dimension} {start pos : Coordinates} {d : Dimension} {s x : Int}
  {withOverlap : Bool}

theorem inChunk_cons :
    InChunk (d :: dims) withOverlap (s :: start) (x :: pos) ↔
      (d.firstPosition withOverlap s ≤ x ∧ x ≤ d.lastPosition withOverlap s) ∧
        InChunk dims withOverlap start pos := by
  simp only [InChunk, Within, getFirstPosition, getLastPosition, zipWith_cons_cons, forall₂_cons]
  tauto

/-- Along a dimension, the positions of a chunk without the overlap. -/
theorem Dimension.core_iff (hs : d.IsChunkStart s) :
    (d.firstPosition false s ≤ x ∧ x ≤ d.lastPosition false s) ↔
      (d.startMin ≤ x ∧ x ≤ d.endMax) ∧ getChunkPosition d.toDimensionDesc x = s := by
  have hstart := hs.1
  rw [getChunkPosition_eq_iff hs.2.2, firstPosition, lastPosition]
  simp only [Bool.false_eq_true, if_false]
  split <;> omega

/-- Without the overlap, a chunk holds the positions that are rounded to its start. -/
theorem inChunk_core_iff (hs : IsChunkPosition (descs dims) start) :
    InChunk dims false start pos ↔
      List.Forall₂ (fun (d : Dimension) x => d.startMin ≤ x ∧ x ≤ d.endMax) dims pos ∧
        getChunkPositionFor (descs dims) pos = start := by
  induction dims generalizing start pos with
  | nil =>
    cases hs
    cases pos with
    | nil => exact iff_of_true ⟨.nil, .nil⟩ ⟨.nil, rfl⟩
    | cons x pos =>
      constructor
      · rintro ⟨h, -⟩
        cases h
      · rintro ⟨h, -⟩
        cases h
  | cons d dims ih =>
    cases hs with
    | cons hd hs =>
      cases pos with
      | nil =>
        constructor
        · rintro ⟨h, -⟩
          cases h
        · rintro ⟨h, -⟩
          cases h
      | cons x pos =>
        rw [inChunk_cons, Dimension.core_iff hd, ih hs, forall₂_cons]
        simp only [descs, getChunkPositionFor, map_cons, zipWith_cons_cons, List.cons.injEq]
        tauto

theorem InChunk.length_eq (h : InChunk dims withOverlap start pos)
    (hs : start.length = dims.length) : pos.length = dims.length := by
  have := h.1.length_eq
  rw [getFirstPosition, length_zipWith] at this
  omega

/-- A chunk position is rounded to itself. -/
theorem getChunkPositionFor_self {dims : List DimensionDesc} (h : IsChunkPosition dims pos) :
    getChunkPositionFor dims pos = pos := by
  induction h with
  | nil => rfl
  | @cons d x dims pos hd _ ih =>
    rw [getChunkPositionFor, zipWith_cons_cons, ← getChunkPositionFor, ih,
      (getChunkPosition_eq_iff hd.2.2).mpr ⟨le_refl x, Int.lt_add_of_pos_right x d.interval_pos⟩]

theorem contains_of_isChunkPosition {dims : List DimensionDesc} (h : IsChunkPosition dims pos) :
    contains dims pos = true :=
  contains_of_forall₂ (h.imp fun _ _ hd => ⟨hd.1, hd.2.1⟩)

/-- A position that a chunk has somewhere, and that is rounded to it, is in its core. -/
theorem InChunk.core (h : InChunk dims true start pos) (hs : IsChunkPosition (descs dims) start)
    (hpos : getChunkPositionFor (descs dims) pos = start) : InChunk dims false start pos := by
  rw [inChunk_core_iff hs]
  refine ⟨?_, hpos⟩
  clear hpos
  induction dims generalizing start pos with
  | nil =>
    cases h.1
    exact .nil
  | cons d dims ih =>
    cases hs with
    | cons hd hs =>
      cases pos with
      | nil => cases h.1
      | cons x pos =>
        rw [inChunk_cons] at h
        refine .cons ?_ (ih h.2 hs)
        have hx := h.1
        have hstart := hd.1
        rw [Dimension.firstPosition, Dimension.lastPosition] at hx
        split at hx <;> split at hx <;> omega

end Positions

end SciDB.Operators
