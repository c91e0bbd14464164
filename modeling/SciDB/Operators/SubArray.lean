import SciDB.Distribution.Enumeration
import SciDB.Distribution.Positions
import SciDB.Lib.Loops
import SciDB.Lib.OrderedMap

/-!
# The subarray operator

`SubArray` (`src/query/ops/subarray/SubArray.cpp`) shows the cells of a window of
its input as an array whose coordinates start at zero.  The chunks of the output
have the size of those of the input, so if the window starts in the middle of an
input chunk, an output chunk collects the cells of up to `2^n` input chunks: those
that hold its corners.

There are two iterators.  `SubArrayIterator` tries every chunk position of the
output; `MappedSubArrayIterator` walks over a set of positions that is computed
from the chunks of the input.

Main results:

- Theorem {lit}`setInputPosition_eq`: a position is tried at its corners.
- Theorem {lit}`plain_enumerates`: the plain iterator visits the positions of the
  output grid where a corner is in an input chunk.
- Theorem {lit}`mapped_enumerates`: the mapped iterator visits those of the chunk set.
- Theorem {lit}`mem_chunkSet`: what the chunk set holds.
-/

namespace SciDB.Operators

open SciDB.Distribution Odometer OrderedMap List

/-- `Coordinates` -/
abbrev Coordinates := List Int

/-! ## The window and the input -/

/-- A dimension of the input and the window in it.  `LogicalSubArray` clips the
window to the bounds of the input, and `DimensionDesc::validate` refuses an output
dimension that is longer than the coordinates reach. -/
structure Axis where
  input : DimensionDesc
  low : Int
  high : Int
  start_le : input.startMin ≤ low
  low_le : low ≤ high
  le_end : high ≤ input.endMax
  width_le : high - low ≤ 2 ^ 62 - 1

/-- The dimension of the output: `setDimensions` of `LogicalSubArray.cpp`. -/
def Axis.output (a : Axis) : DimensionDesc :=
  .ofBounds 0 (a.high - a.low) a.input.chunkInterval
    ⟨by decide, sub_nonneg.mpr a.low_le, a.width_le, a.input.interval_pos, a.input.interval_lt⟩

/-- `ArrayDesc::contains` -/
def contains (dims : List DimensionDesc) (pos : Coordinates) : Bool :=
  (dims.zip pos).all fun e => decide (e.1.startMin ≤ e.2 ∧ e.2 ≤ e.1.endMax)

theorem contains_of_forall₂ {dims : List DimensionDesc} {k : Coordinates}
    (h : List.Forall₂ (fun d y => d.startMin ≤ y ∧ y ≤ d.endMax) dims k) :
    contains dims k = true := by
  induction h with
  | nil => rfl
  | cons hy _ ih =>
    rw [contains, zip_cons_cons, all_cons, Bool.and_eq_true, decide_eq_true_iff]
    exact ⟨hy, ih⟩

/-- An array without overlap: the chunks of all attributes are at the same
positions and their cells where the empty bitmap has them.  `A` are the attributes
and `V` their values.

`ConstArrayIterator::setPosition` selects the chunk that holds a position.  What it
answers to a position outside of the bounds is left open: the iterators of stored
and of memory arrays round it as any other and may find the last chunk of a
dimension, those of most operators refuse it. -/
structure InputArray (dims : List DimensionDesc) (A V : Type) where
  chunks : List (Coordinates × List (Coordinates × (A → V)))
  outside : Coordinates → Option Coordinates
  isChunkPosition : ∀ c ∈ chunks, IsChunkPosition dims c.1
  nodup : (chunks.map Prod.fst).Nodup
  cells_in : ∀ c ∈ chunks, ∀ e ∈ c.2,
    List.Forall₂ (fun d x => d.startMin ≤ x ∧ x ≤ d.endMax) dims e.1 ∧
      getChunkPositionFor dims e.1 = c.1
  cells_nodup : ∀ c ∈ chunks, (c.2.map Prod.fst).Nodup
  outside_mem : ∀ pos c, outside pos = some c → c ∈ chunks.map Prod.fst

namespace InputArray

variable {dims : List DimensionDesc} {A V : Type} (I : InputArray dims A V)

/-- The positions of the chunks, in the order of the iteration. -/
def positions : List Coordinates :=
  I.chunks.map Prod.fst

/-- The cells of the chunk at a position. -/
def cellsAt (c : Coordinates) : List (Coordinates × (A → V)) :=
  (I.chunks.lookup c).getD []

/-- `inputIterator->setPosition`, with the position of the chunk it selects. -/
def setPosition (pos : Coordinates) : Option Coordinates :=
  if contains dims pos then
    let c := getChunkPositionFor dims pos
    if c ∈ I.positions then some c else none
  else I.outside pos

/-- The values of the cell at a position. -/
def cell (pos : Coordinates) : Option (A → V) :=
  (I.cellsAt (getChunkPositionFor dims pos)).lookup pos

end InputArray

/-- `SubArray`: the window and its input. -/
structure SubArray (A V : Type) where
  axes : List Axis
  input : InputArray (axes.map Axis.input) A V
  axes_ne_nil : axes ≠ []

namespace SubArray

variable {A V : Type} (S : SubArray A V)

/-- The dimensions of the output. -/
def dims : List DimensionDesc :=
  S.axes.map Axis.output

def out2in (out : Coordinates) : Coordinates :=
  List.zipWith (fun a x => x + a.low) S.axes out

variable (pos : Coordinates)

def in2out : Coordinates :=
  List.zipWith (fun a x => x - a.low) S.axes pos

/-- The window starts at the start of a chunk in every dimension. -/
def aligned : Bool :=
  S.axes.all fun a => decide ((a.low - a.input.startMin).tmod a.input.chunkInterval = 0)

/-! ## Probing and filling an output chunk -/

/-- The far end of a chunk: `inPos[i] += interval` adds an unsigned number. -/
def farEnd (a : Axis) (x : Int) : Int :=
  Int.bmod (x + (a.input.chunkInterval - 1)) (2 ^ 64)

/-- `setInputPosition`; `front` are the coordinates that were chosen before. -/
def setInputPosition (front : Coordinates) : List Axis → Coordinates → Bool
  | a :: axes, x :: inPos =>
    setInputPosition (front ++ [x]) axes inPos ||
      setInputPosition (front ++ [farEnd a x]) axes inPos
  | _, _ => (S.input.setPosition front).isSome

/-- `outIterator->setPosition`: the position is in the chunk at `outPos`, which ends
where the output does. -/
def inOutputChunk : List Axis → Coordinates → Coordinates → Bool
  | a :: axes, o :: outPos, x :: pos =>
    decide (o ≤ x ∧ x ≤ min (o + a.output.chunkInterval - 1) a.output.endMax) &&
      inOutputChunk axes outPos pos
  | [], [], [] => true
  | _, _, _ => false

/-- The cells written to an output chunk, the last one first. -/
abbrev Written (V : Type) := List (Coordinates × V)

/-- The loop of `fillSparseChunk` over the cells of an input chunk. -/
def copyCells (attr : A) (outPos : Coordinates) (cells : List (Coordinates × (A → V)))
    (out : Written V) : Written V :=
  cells.foldl (fun out e =>
    let pos := S.in2out e.1
    if inOutputChunk S.axes outPos pos then (pos, e.2 attr) :: out else out) out

/-- The end of the recursion in `fillSparseChunk`: the chunk at `inPos`, if there is
one, is copied. -/
def fillFrom (attr : A) (outPos inPos : Coordinates) (out : Written V) : Written V :=
  match S.input.setPosition inPos with
  | some c => S.copyCells attr outPos (S.input.cellsAt c) out
  | none => out

def fillSparseChunk (attr : A) (outPos : Coordinates) (front : Coordinates) :
    List Axis → Coordinates → Written V → Written V
  | a :: axes, x :: inPos, out =>
    let out := fillSparseChunk attr outPos (front ++ [x]) axes inPos out
    fillSparseChunk attr outPos (front ++ [farEnd a x]) axes inPos out
  | _, _, out => S.fillFrom attr outPos front out

/-- `getChunk` of an iterator at `outPos`. -/
def getChunk (attr : A) (outPos : Coordinates) : Written V :=
  S.fillSparseChunk attr outPos [] S.axes (S.out2in outPos) []

/-- `out2in` and `setInputPosition(0)` -/
def probe (outPos : Coordinates) : Bool :=
  S.setInputPosition [] S.axes (S.out2in outPos)

/-! ## The plain iterator -/

/-- `SubArrayIterator::operator++`.  The inner loop is a turn of the odometer of the
output grid. -/
def plainNext (outPos : Coordinates) : Except Fault (Option Coordinates) :=
  match _hturn : advance (digits S.dims) outPos with
  | .error e => .error e
  | .ok none => .ok none
  | .ok (some pos) => if S.probe pos then .ok (some pos) else plainNext pos
termination_by rank (digits S.dims) outPos
decreasing_by exact advance_rank _hturn

/-- One step in front of the first position. -/
def beforeFirst : List Axis → Coordinates
  | [] => []
  | [a] => [0 - a.output.chunkInterval]
  | _ :: a :: axes => 0 :: beforeFirst (a :: axes)

/-- `SubArrayIterator::restart` -/
def plainRestart : Except Fault (Option Coordinates) :=
  S.plainNext (beforeFirst S.axes)

/-- `SubArrayIterator::setPosition`, with the position it ends at. -/
def plainSetPosition : Option Coordinates :=
  if contains S.dims pos then
    let outPos := getChunkPositionFor S.dims pos
    if S.probe outPos then some outPos else none
  else none

/-! ## The mapped iterator -/

/-- A coordinate that is not one of the output. -/
def outOfBounds (e : Axis × Int) : Bool :=
  decide (e.2 < e.1.output.startMin ∨ e.2 > e.1.output.endMax)

/-- `std::set<Coordinates, CoordinatesLess>` -/
abbrev ChunkSet := OrdMap Coordinates Unit

/-- The check at the start of `addChunksToSet`, from the coordinate before `dim` on. -/
def pruned (front rest : List (Axis × Int)) : Bool :=
  (front.getLast?.toList ++ rest).any outOfBounds

/-- `addChunksToSet`: `front` are the coordinates before `dim`, of which the last one
was just chosen, and then come those from `dim` on. -/
def addChunksToSet (aligned : Bool) (front : List (Axis × Int)) :
    List (Axis × Int) → ChunkSet → ChunkSet
  | [], chunkSet =>
    if pruned front [] then chunkSet else chunkSet.insert (front.map Prod.snd) ()
  | (a, x) :: rest, chunkSet =>
    if pruned front ((a, x) :: rest) then chunkSet
    else if aligned then chunkSet.insert ((front ++ (a, x) :: rest).map Prod.snd) ()
    else
      let chunkSet := addChunksToSet aligned (front ++ [(a, x)]) rest chunkSet
      addChunksToSet aligned (front ++ [(a, x + a.output.chunkInterval)]) rest chunkSet

/-- `buildChunkSet` -/
def chunkSet : ChunkSet :=
  S.input.positions.foldl (fun chunkSet c =>
    let outChunkCoords := getChunkPositionFor S.dims (S.in2out c)
    addChunksToSet S.aligned [] (S.axes.zip outChunkCoords) chunkSet) OrdMap.empty

/-- A position in the chunk set: the positions from it on. -/
abbrev Cursor := List (Coordinates × Unit)

/-- The loop of `MappedSubArrayIterator::operator++` from a position on. -/
def mappedFrom : Cursor → Option Cursor
  | [] => none
  | e :: rest => if S.probe e.1 then some (e :: rest) else mappedFrom rest

/-- `MappedSubArrayIterator::operator++` -/
def mappedNext (mIter : Cursor) : Except Fault (Option Cursor) :=
  .ok (S.mappedFrom mIter.tail)

/-- `MappedSubArrayIterator::restart` -/
def mappedRestart : Except Fault (Option Cursor) :=
  .ok (S.mappedFrom S.chunkSet.entries)

/-- `MappedSubArrayIterator::setPosition` -/
def mappedSetPosition : Option Coordinates :=
  if contains S.dims pos then
    let outPos := getChunkPositionFor S.dims pos
    match S.chunkSet.get outPos with
    | none => none
    | some _ => if S.probe outPos then some outPos else none
  else none

/-- `SUBARRAY_MAP_ITERATOR_THRESHOLD` -/
def SUBARRAY_MAP_ITERATOR_THRESHOLD : Nat := 6000

/-- `numChunksInBox`, a product of floating-point numbers in the source. -/
def numChunksInBox : Nat :=
  (S.axes.map fun a => (Int.ediv (a.high - a.low + a.input.chunkInterval)
    a.input.chunkInterval).toNat).prod

/-- `createArrayIterator` makes the mapped iterator for large windows. -/
def useChunkSet : Bool :=
  decide (S.numChunksInBox > SUBARRAY_MAP_ITERATOR_THRESHOLD)

end SubArray

/-! ## Cells and positions -/

namespace InputArray

variable {dims : List DimensionDesc} {A V : Type} {I : InputArray dims A V}
  {c pos : Coordinates} {t : A → V}

theorem mem_cellsAt (h : (pos, t) ∈ I.cellsAt c) :
    List.Forall₂ (fun d x => d.startMin ≤ x ∧ x ≤ d.endMax) dims pos ∧
      getChunkPositionFor dims pos = c := by
  rw [cellsAt] at h
  cases hl : I.chunks.lookup c with
  | none => simp [hl] at h
  | some cells =>
    rw [hl] at h
    exact I.cells_in _ (mem_of_lookup hl) _ h

theorem cell_eq_some : I.cell pos = some t ↔ ∃ c, (pos, t) ∈ I.cellsAt c := by
  constructor
  · intro h
    exact ⟨_, mem_of_lookup h⟩
  · rintro ⟨c, h⟩
    rw [cell, (mem_cellsAt h).2]
    rw [cellsAt] at h ⊢
    cases hl : I.chunks.lookup c with
    | none => simp [hl] at h
    | some cells =>
      rw [hl] at h
      exact lookup_of_nodup (I.cells_nodup _ (mem_of_lookup hl)) h

end InputArray

namespace SubArray

variable {A V : Type} {S : SubArray A V} {attr : A} {axes : List Axis}
  {o p pos front : Coordinates} {v : V}

/-- Shifting along every axis and back. -/
theorem zipWith_zipWith_cancel {f g : Axis → Int → Int} (hfg : ∀ a x, f a (g a x) = x)
    (h : pos.length = axes.length) : List.zipWith f axes (List.zipWith g axes pos) = pos := by
  induction axes generalizing pos with
  | nil => exact (length_eq_zero_iff.mp h).symm
  | cons a axes ih =>
    cases pos with
    | nil => simp at h
    | cons x pos => simpa [hfg] using ih (by simpa using h)

theorem out2in_in2out (h : pos.length = S.axes.length) : S.out2in (S.in2out pos) = pos :=
  zipWith_zipWith_cancel (fun a x => Int.sub_add_cancel x a.low) h

theorem in2out_out2in (h : pos.length = S.axes.length) : S.in2out (S.out2in pos) = pos :=
  zipWith_zipWith_cancel (fun a x => Int.add_sub_cancel x a.low) h

/-- The position is one of the output. -/
def InOutput (axes : List Axis) (pos : Coordinates) : Prop :=
  List.Forall₂ (fun a x => 0 ≤ x ∧ x ≤ a.high - a.low) axes pos

/-- The cells an output chunk can hold are those that are rounded to its position. -/
theorem inOutputChunk_iff (ho : IsChunkPosition (axes.map Axis.output) o) :
    inOutputChunk axes o p = true ↔
      InOutput axes p ∧ getChunkPositionFor (axes.map Axis.output) p = o := by
  rw [IsChunkPosition, forall₂_map_left_iff] at ho
  induction ho generalizing p with
  | nil =>
    cases p with
    | nil => simp [inOutputChunk, InOutput, getChunkPositionFor]
    | cons x p => simp [inOutputChunk, InOutput]
  | @cons a o axes outPos ho _ ih =>
    cases p with
    | nil => simp [inOutputChunk, InOutput]
    | cons x p =>
      have hround : getChunkPosition a.output x = o ↔
          o ≤ x ∧ x < o + a.output.chunkInterval := getChunkPosition_eq_iff ho.2.2
      have hge : 0 ≤ o := ho.1
      have hx : (o ≤ x ∧ x ≤ min (o + a.output.chunkInterval - 1) a.output.endMax) ↔
          (0 ≤ x ∧ x ≤ a.high - a.low) ∧ getChunkPosition a.output x = o := by
        rw [hround, show a.output.endMax = a.high - a.low from rfl]
        omega
      have hcons : getChunkPositionFor ((a :: axes).map Axis.output) (x :: p) =
          getChunkPosition a.output x :: getChunkPositionFor (axes.map Axis.output) p := rfl
      rw [inOutputChunk, Bool.and_eq_true, decide_eq_true_iff, ih, hcons, List.cons.injEq, InOutput,
        InOutput, forall₂_cons]
      tauto

/-- Every position of the output is in one of its chunks. -/
theorem isChunkPosition_of_inOutput (h : InOutput axes p) :
    IsChunkPosition (axes.map Axis.output) (getChunkPositionFor (axes.map Axis.output) p) := by
  induction h with
  | nil => exact .nil
  | cons hx _ ih => exact .cons (isChunkStart_getChunkPosition hx.1 hx.2) ih

/-! ## The corners of a chunk -/

/-- The corners of the chunk that starts at a position, in the order of the
recursion. -/
def corners : List Axis → Coordinates → List Coordinates
  | a :: axes, x :: pos =>
    (corners axes pos).map (x :: ·) ++ (corners axes pos).map (farEnd a x :: ·)
  | _, _ => [[]]

/-- A position is tried at its corners. -/
theorem setInputPosition_eq (front pos : Coordinates) (axes : List Axis) :
    S.setInputPosition front axes pos =
      (corners axes pos).any fun k => (S.input.setPosition (front ++ k)).isSome := by
  induction axes generalizing front pos with
  | nil => simp [setInputPosition, corners]
  | cons a axes ih =>
    cases pos with
    | nil => simp [setInputPosition, corners]
    | cons x pos =>
      rw [setInputPosition, ih, ih, corners, any_append, any_map, any_map]
      simp [Function.comp_def]

/-- A chunk is filled from its corners. -/
theorem fillSparseChunk_eq (front pos : Coordinates) (axes : List Axis) (out : Written V) :
    S.fillSparseChunk attr o front axes pos out =
      (corners axes pos).foldl (fun out k => S.fillFrom attr o (front ++ k) out) out := by
  induction axes generalizing front pos out with
  | nil => simp [fillSparseChunk, corners]
  | cons a axes ih =>
    cases pos with
    | nil => simp [fillSparseChunk, corners]
    | cons x pos =>
      rw [fillSparseChunk, ih, ih, corners, foldl_append, foldl_map, foldl_map]
      simp

theorem mem_copyCells {cells : List (Coordinates × (A → V))} {out : Written V} :
    (p, v) ∈ S.copyCells attr o cells out ↔
      (p, v) ∈ out ∨ ∃ e ∈ cells, S.in2out e.1 = p ∧ inOutputChunk S.axes o p ∧ e.2 attr = v := by
  refine Loops.foldl_collects (fun out => (p, v) ∈ out) _ ?_ cells out
  intro out e
  by_cases h : inOutputChunk S.axes o (S.in2out e.1)
  · grind
  · simp only [h]
    grind

/-- The cells of an output chunk are those of the input chunks at its corners. -/
theorem mem_getChunk :
    (p, v) ∈ S.getChunk attr o ↔
      ∃ k ∈ corners S.axes (S.out2in o), ∃ c, S.input.setPosition k = some c ∧
        ∃ e ∈ S.input.cellsAt c, S.in2out e.1 = p ∧ inOutputChunk S.axes o p ∧ e.2 attr = v := by
  rw [getChunk, fillSparseChunk_eq, Loops.foldl_collects (fun out => (p, v) ∈ out) fun k =>
    ∃ c, S.input.setPosition k = some c ∧
      ∃ e ∈ S.input.cellsAt c, S.in2out e.1 = p ∧ inOutputChunk S.axes o p ∧ e.2 attr = v]
  · simp
  · intro out k
    rw [nil_append, fillFrom]
    cases hc : S.input.setPosition k with
    | none => simp
    | some c => simpa using mem_copyCells

/-- What an output chunk holds is in the input, and the iterators find the chunk. -/
theorem getChunk_sound (h : (p, v) ∈ S.getChunk attr o) :
    inOutputChunk S.axes o p = true ∧ S.probe o = true ∧
      ∃ t, S.input.cell (S.out2in p) = some t ∧ t attr = v := by
  rcases mem_getChunk.mp h with ⟨k, hk, c, hc, ⟨x, t⟩, he, rfl, hin, hv⟩
  have hlen : x.length = S.axes.length := by
    simpa using (InputArray.mem_cellsAt he).1.length_eq.symm
  refine ⟨hin, ?_, t, ?_, hv⟩
  · rw [probe, setInputPosition_eq, any_eq_true]
    exact ⟨k, hk, by simp [hc]⟩
  · rw [out2in_in2out hlen]
    exact InputArray.cell_eq_some.mpr ⟨c, he⟩

/-- A cell that is written more than once is written with the same value. -/
theorem lookup_getChunk : (S.getChunk attr o).lookup p = some v ↔ (p, v) ∈ S.getChunk attr o := by
  refine ⟨mem_of_lookup, fun h => ?_⟩
  cases hl : (S.getChunk attr o).lookup p with
  | none =>
    have := lookup_eq_none_iff.mp hl _ h
    simp at this
  | some w =>
    rcases getChunk_sound h with ⟨_, _, t, ht, rfl⟩
    rcases getChunk_sound (mem_of_lookup hl) with ⟨_, _, t', ht', rfl⟩
    rw [ht] at ht'
    cases ht'
    rfl

/-! ## What the plain iterator visits -/

theorem plainNext_isSearch :
    IsSearch (advance (digits S.dims)) (fun pos => .ok (S.probe pos)) S.plainNext := by
  intro outPos
  rw [plainNext]
  split
  · rename_i e h
    simp [h]
  · rename_i h
    simp [h]
  · rename_i pos h
    simp only [h]
    cases S.probe pos <;> rfl

/-- Stepping past the last chunk of the output does not overflow. -/
theorem lastChunkStart_output_lt (a : Axis) :
    a.output.lastChunkStart + a.output.chunkInterval < 2 ^ 63 := by
  have hcount : 0 < a.output.chunkCount := by
    rw [DimensionDesc.chunkCount]
    omega
  have hlast : a.output.IsChunkStart a.output.lastChunkStart :=
    a.output.isChunkStart_iff.mpr ⟨_, by omega, rfl⟩
  rcases hlast with ⟨hge, hle, k, hk⟩
  have hmax := a.output.le_getMax
  have hlt := a.output.interval_lt
  have hpos := a.output.interval_pos
  have hzero : a.output.startMin = 0 := rfl
  -- the last chunk is the first one or starts behind one of its length
  rcases le_or_gt k 0 with hk0 | hk0
  · have := Int.mul_nonpos_of_nonneg_of_nonpos hpos.le hk0
    omega
  · have := Int.mul_le_mul_of_nonneg_left (show 1 ≤ k from hk0) hpos.le
    omega

/-- The first step leads to the origin. -/
theorem advance_beforeFirst (h : axes ≠ []) :
    advance (digits (axes.map Axis.output)) (beforeFirst axes) =
      .ok (some (origin (axes.map Axis.output))) := by
  induction axes with
  | nil => exact (h rfl).elim
  | cons a axes ih =>
    cases axes with
    | nil =>
      have hlt := a.output.interval_lt
      have hend := a.output.start_le_end
      have hstep : a.output.step (0 - a.output.chunkInterval) = .ok (some 0) := by
        rw [DimensionDesc.step_of_lt (by omega) (by omega), Int.sub_add_cancel,
          if_neg (show ¬0 > a.output.endMax from not_lt.mpr hend)]
      change Except.map _ (a.output.step (0 - a.output.chunkInterval)) = _
      rw [hstep]
      rfl
    | cons b axes =>
      rw [beforeFirst, map_cons, digits, map_cons, advance]
      rw [digits] at ih
      rw [ih (by simp)]
      rfl

/-- The plain iterator visits the chunk positions of the output where a corner is in
an input chunk, in row-major order. -/
theorem plain_enumerates :
    Enumerates S.plainNext S.plainRestart ((grid S.dims).filter S.probe) := by
  apply Enumerates.filter_search plainNext_isSearch S.probe _ fun _ _ => rfl
  rw [dims, advance_beforeFirst S.axes_ne_nil]
  apply advance_enumerates_grid
  intro d hd
  rcases mem_map.mp hd with ⟨a, _, rfl⟩
  exact lastChunkStart_output_lt a

/-! ## What the mapped iterator visits -/

/-- The position a cursor points to. -/
def Cursor.position (mIter : Cursor) : Coordinates :=
  (mIter.head?.map Prod.fst).getD []

/-- The positions of the chunk set in row-major order. -/
def setPositions (S : SubArray A V) : List Coordinates :=
  S.chunkSet.entries.map Prod.fst

/-- The mapped iterator visits the positions of the chunk set where a corner is in an
input chunk. -/
theorem mapped_enumerates :
    ∃ visited, Enumerates S.mappedNext S.mappedRestart visited ∧
      visited.map Cursor.position = S.setPositions.filter S.probe := by
  rw [mappedRestart, setPositions]
  generalize S.chunkSet.entries = mIter
  induction mIter with
  | nil => exact ⟨[], .done, rfl⟩
  | cons e rest ih =>
    rcases ih with ⟨visited, henum, hvisited⟩
    rw [mappedFrom, map_cons]
    by_cases h : S.probe e.1
    · rw [if_pos h, filter_cons_of_pos h, ← hvisited]
      exact ⟨(e :: rest) :: visited, .more henum, rfl⟩
    · rw [if_neg h, filter_cons_of_neg h]
      exact ⟨visited, henum, hvisited⟩

/-! ## The chunk set -/

/-- A relation between two positions that holds along every axis. -/
inductive Along (R : Axis → Int → Int → Prop) : List Axis → Coordinates → Coordinates → Prop
  | nil : Along R [] [] []
  | cons {a : Axis} {x y : Int} {axes : List Axis} {xs ys : Coordinates} :
      R a x y → Along R axes xs ys → Along R (a :: axes) (x :: xs) (y :: ys)

/-- Along one axis, `addChunksToSet` leads from an input chunk to an output chunk: the
input chunk does not start in front of the window, and the output chunk is the one its
start falls into or, unless the whole window is aligned, the next one. -/
def Pushes (aligned : Bool) (a : Axis) (c o : Int) : Prop :=
  a.low ≤ c ∧ getChunkPosition a.output (c - a.low) ≤ a.high - a.low ∧
    (o = getChunkPosition a.output (c - a.low) ∨
      aligned = false ∧ o = getChunkPosition a.output (c - a.low) + a.output.chunkInterval ∧
        o ≤ a.high - a.low)

/-- Some input chunk puts the output chunk into the chunk set. -/
def Listed (S : SubArray A V) (o : Coordinates) : Prop :=
  ∃ c ∈ S.input.positions, Along (Pushes S.aligned) S.axes c o

theorem get_insert_unit {chunkSet : ChunkSet} {q : Coordinates} :
    (chunkSet.insert q ()).get o = some () ↔ chunkSet.get o = some () ∨ o = q := by
  rw [OrdMap.get_insert]
  split
  · simp [*]
  · simp [*]

/-- Along one axis, the coordinates that `addChunksToSet` chooses. -/
def Chosen (aligned : Bool) (e : Axis × Int) (y : Int) : Prop :=
  y = e.2 ∨ aligned = false ∧ y = e.2 + e.1.output.chunkInterval ∧ outOfBounds (e.1, y) = false

variable {rest front : List (Axis × Int)} {aligned : Bool} {e : Axis × Int} {c : Coordinates} {a : Axis}

theorem pruned_concat : pruned (front ++ [e]) rest = (outOfBounds e || rest.any outOfBounds) := by
  simp [pruned]

theorem pruned_cons
    (h : pruned front (e :: rest) = false) :
    outOfBounds e = false ∧ rest.any outOfBounds = false := by
  rw [pruned, any_append, Bool.or_eq_false_iff, any_cons, Bool.or_eq_false_iff] at h
  exact h.2

theorem get_addChunksToSet (front : List (Axis × Int)) (chunkSet : ChunkSet) :
    (addChunksToSet aligned front rest chunkSet).get o = some () ↔
      chunkSet.get o = some () ∨ pruned front rest = false ∧
        ∃ tail, o = front.map Prod.snd ++ tail ∧ List.Forall₂ (Chosen aligned) rest tail := by
  induction rest generalizing front chunkSet with
  | nil =>
    rw [addChunksToSet]
    cases pruned front [] <;> simp [get_insert_unit]
  | cons e rest ih =>
    rcases e with ⟨a, x⟩
    rw [addChunksToSet]
    cases hp : pruned front ((a, x) :: rest) with
    | true => simp
    | false =>
      cases aligned with
      | true =>
        have hsame : ∀ {l : List (Axis × Int)} {tail},
            List.Forall₂ (Chosen true) l tail ↔ tail = l.map Prod.snd := by
          intro l
          induction l with
          | nil => simp
          | cons e l ihl => simp [forall₂_cons_left_iff, Chosen, ihl]
        simp [get_insert_unit, hsame]
      | false =>
        have hin := pruned_cons hp
        simp only [Bool.false_eq_true, if_false, ih, pruned_concat, hin.1, hin.2,
          Bool.or_false, true_and, forall₂_cons_left_iff]
        constructor
        · rintro ((h | ⟨tail, rfl, htail⟩) | ⟨hy, tail, rfl, htail⟩)
          · exact .inl h
          · exact .inr ⟨x :: tail, by simp, x, tail, .inl rfl, htail, rfl⟩
          · exact .inr ⟨_ :: tail, by simp, _, tail, .inr ⟨rfl, rfl, hy⟩, htail, rfl⟩
        · rintro (h | ⟨_, rfl, y, tail, hy | ⟨_, hy, hin⟩, htail, rfl⟩)
          · exact .inl (.inl h)
          · exact .inl (.inr ⟨tail, by simp [hy], htail⟩)
          · subst hy
            exact .inr ⟨hin, tail, by simp, htail⟩

theorem along_cons {R : Axis → Int → Int → Prop} {x : Int} :
    Along R (a :: axes) (x :: c) o ↔ ∃ y o', R a x y ∧ Along R axes c o' ∧ o = y :: o' := by
  constructor
  · intro h
    cases h with
    | cons hy ho => exact ⟨_, _, hy, ho, rfl⟩
  · rintro ⟨y, o', hy, ho, rfl⟩
    exact .cons hy ho

theorem pushes_iff {x y : Int} :
    Pushes aligned a x y ↔ outOfBounds (a, getChunkPosition a.output (x - a.low)) = false ∧
      Chosen aligned (a, getChunkPosition a.output (x - a.low)) y := by
  have hzero : a.output.startMin ≤ getChunkPosition a.output (x - a.low) ↔
      a.output.startMin ≤ x - a.low := startMin_le_getChunkPosition
  have hpos := a.output.interval_pos
  rw [show a.output.startMin = 0 from rfl] at hzero
  rw [Pushes, Chosen, outOfBounds, outOfBounds, decide_eq_false_iff_not, show a.output.startMin =
    0 from rfl, show a.output.endMax = a.high - a.low from rfl]
  grind

/-- The choices from the rounded start of an input chunk. -/
theorem chosen_iff_along (h : c.length = axes.length) :
    (axes.zip (getChunkPositionFor (axes.map Axis.output)
        (List.zipWith (fun a x => x - a.low) axes c))).any outOfBounds = false ∧
      List.Forall₂ (Chosen aligned) (axes.zip (getChunkPositionFor (axes.map Axis.output)
        (List.zipWith (fun a x => x - a.low) axes c))) o ↔
      Along (Pushes aligned) axes c o := by
  induction axes generalizing c o with
  | nil =>
    cases length_eq_zero_iff.mp h
    cases o with
    | nil => simp [Along.nil]
    | cons y o =>
      constructor
      · rintro ⟨_, h⟩
        cases h
      · intro h
        cases h
  | cons a axes ih =>
    cases c with
    | nil => simp at h
    | cons x c =>
      have hlen : c.length = axes.length := by simpa using h
      simp only [along_cons, pushes_iff]
      rw [map_cons, zipWith_cons_cons, getChunkPositionFor, zipWith_cons_cons, zip_cons_cons,
        any_cons, forall₂_cons_left_iff]
      rw [← getChunkPositionFor]
      grind

/-- What the chunk set holds. -/
theorem mem_chunkSet : S.chunkSet.get o = some () ↔ S.Listed o := by
  rw [chunkSet, Loops.foldl_collects (fun chunkSet => OrdMap.get chunkSet o = some ())
    fun c => pruned [] (S.axes.zip (getChunkPositionFor S.dims (S.in2out c))) = false ∧
      List.Forall₂ (Chosen S.aligned) (S.axes.zip (getChunkPositionFor S.dims (S.in2out c))) o]
  · simp only [OrdMap.get_empty, reduceCtorEq, false_or]
    refine exists_congr fun c => and_congr_right fun hc => ?_
    have hlen : c.length = S.axes.length := by
      rcases mem_map.mp hc with ⟨chunk, hchunk, rfl⟩
      simpa using (S.input.isChunkPosition chunk hchunk).length_eq.symm
    exact chosen_iff_along hlen
  · intro chunkSet c
    simp [get_addChunksToSet]

end SubArray
end SciDB.Operators
