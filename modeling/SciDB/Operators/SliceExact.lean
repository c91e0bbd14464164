import SciDB.Operators.Slice

/-!
# When slice is exact

The chunks of the slice are those of the input that have positions on it, and their
cells are those with the sliced coordinates.  Iterating over the chunks and the cells
is exact up to three defects.  The simple chunk iterator also shows the cells of the
overlap that lie beside the slice.  The finite array iterator keeps the coordinates that
`setPosition` was given, so that adding chunk intervals to them can skip the last, shorter
chunk of a dimension.  And the mask of the sliced dimensions has 64 bits, while an array
may have more dimensions.

Main results:

- Theorem {lit}`mem_later_iff`: the chunks that the finite iterator goes on to.
- Theorem {lit}`slice_exact_iff`: the condition for all iterators to be exact.
-/

namespace SciDB.Operators.Slice

open SciDB.Distribution Odometer OrderedMap Iteration List OrdMap

variable {V : Type}

/-! ## What the iterators are to visit -/

namespace SliceArray

variable (S : SliceArray V)

/-- The chunks with positions on the slice. -/
def chunks : List (Coordinates × Chunk V) :=
  S.input.chunks.entries.filter fun c => meetsSlice S.axes c.1

/-- The cells of a chunk of the output. -/
def cells (ignoreOverlaps : Bool) (c : Coordinates × Chunk V) : List (Coordinates × Option V) :=
  ((visibleCells S.axes ignoreOverlaps c).filter fun e => onSlice S.axes e.1).map fun e =>
    (mapPos S.axes e.1, some e.2)

/-- The cell of the input at a position. -/
def inputCell (pos : Coordinates) : Option V :=
  (S.input.chunks.get (getChunkPositionFor (dims S.axes) pos)).bind fun chunk => chunk.get pos

/-- Every iterator is exact. -/
structure Exact : Prop where
  /-- The output positions of the chunks and of the cells of a chunk increase. -/
  chunks_increase : (S.chunks.map fun c => mapPos S.axes c.1).Pairwise (· < ·)
  cells_increase : ∀ c ∈ S.chunks, ∀ ignoreOverlaps,
    ((S.cells ignoreOverlaps c).map Prod.fst).Pairwise (· < ·)
  /-- Without the overlap, the output has each cell of the slice once. -/
  once : (S.chunks.flatMap fun c => (S.cells true c).map Prod.fst).Nodup
  all : ∀ pos v, (∃ c ∈ S.chunks, (pos, some v) ∈ S.cells true c) ↔
    ∃ inPos, onSlice S.axes inPos ∧ mapPos S.axes inPos = pos ∧ S.inputCell inPos = some v
  finite : ∃ l, Enumerates S.moveNext S.restart l ∧
    (l.map fun q => (mapPos S.axes q, S.chunkAt q)) =
      S.chunks.map fun c => (mapPos S.axes c.1, some c)
  finite_from : ∀ pos c, Inside S.axes (inPosOf S.axes pos) →
    S.chunkAt (inPosOf S.axes pos) = some c →
    ∃ l, Enumerates S.moveNext (S.moveNext (inPosOf S.axes pos)) l ∧
      l.map S.chunkAt = (S.chunks.filter fun c' => isAfter c.1 c'.1).map some
  infinite : ∃ s, S.infiniteRestart = .ok s ∧ Visits List.head? S.infiniteNext s S.chunks
  infinite_from : ∀ pos c, Inside S.axes (inPosOf S.axes pos) →
    S.chunkAt (inPosOf S.axes pos) = some c →
    ∃ s, S.infiniteSetPosition pos = some s ∧
      Visits List.head? S.infiniteNext s (S.chunks.filter fun c' => isFrom c.1 c'.1)
  general : ∀ c ∈ S.chunks, ∀ ignoreOverlaps,
    ∃ l, Enumerates (S.nextCell ignoreOverlaps c) (S.restartCells ignoreOverlaps c) l ∧
      l.map (S.showCell c) = S.cells ignoreOverlaps c
  simple : S.simple → ∀ c ∈ S.chunks, ∀ ignoreOverlaps,
    S.simpleCells ignoreOverlaps c = S.cells ignoreOverlaps c

end SliceArray

/-- In the first coordinate where the second chunk differs from the first one, it is not
cut off by the end of the dimension. -/
def FullWhereDiffers : List Axis → Coordinates → Coordinates → Prop
  | a :: axes, x :: xs, y :: ys =>
    (x = y → FullWhereDiffers axes xs ys) ∧ (x < y → y + a.input.chunkInterval - 1 ≤ a.input.endMax)
  | _, _, _ => True

/-- The condition for all iterators to be exact. -/
structure Regular (S : SliceArray V) : Prop where
  /-- the mask has a bit for every dimension -/
  dims_le : S.axes.length ≤ 64
  /-- if the simple chunk iterator is used, no chunk of the slice has cells beside it -/
  beside : S.simple → ∀ c ∈ S.chunks, ∀ e ∈ c.2.entries, onSlice S.axes e.1
  /-- a later chunk of the slice is not cut off where it differs from an earlier one -/
  full : ∀ c ∈ S.chunks, ∀ c' ∈ S.chunks, c.1 < c'.1 → FullWhereDiffers S.axes c.1 c'.1
  /-- no sum or difference of coordinates and chunk intervals overflows -/
  back_fits : SliceArray.BackFits S.axes
  last_fits : ∀ a ∈ S.axes, a.slice = none → a.input.lastChunkStart + a.input.chunkInterval < 2 ^ 63
  end_fits : S.chunks ≠ [] → ∀ a ∈ S.axes, a.slice = none →
    a.input.endMax + a.input.chunkInterval < 2 ^ 63
  test_fits : ∀ c ∈ S.input.chunks.entries, TestFits S.axes c.1

/-! ## The positions of the output -/

/-- The sliced coordinates agree. -/
def SameSlice : List Axis → Coordinates → Coordinates → Prop
  | a :: axes, x :: xs, y :: ys => (a.slice ≠ none → x = y) ∧ SameSlice axes xs ys
  | [], [], [] => True
  | _, _, _ => False

variable {axes axes : List Axis} {x y c p c' : Coordinates} {a : Axis} {pick : Axis → Int → Int → Int}

/-- Dropping coordinates that agree keeps the order. -/
theorem mapPos_lt (h : SameSlice axes x y) (hlt : x < y) : mapPos axes x < mapPos axes y := by
  induction axes generalizing x y with
  | nil => cases x <;> cases y <;> first | exact h.elim | exact hlt
  | cons a axes ih =>
    cases x with
    | nil => cases y <;> exact h.elim
    | cons x xs =>
      cases y with
      | nil => exact h.elim
      | cons y ys =>
        rcases h with ⟨hsame, hrest⟩
        rw [cons_lt_cons_iff] at hlt
        rw [mapPos, mapPos]
        cases hs : a.slice with
        | none =>
          rw [cons_lt_cons_iff]
          exact hlt.imp_right fun h => ⟨h.1, ih hrest h.2⟩
        | some s =>
          have heq := hsame (by simp [hs])
          rcases hlt with hlt | hlt
          · exact absurd heq hlt.ne
          · exact ih hrest hlt.2

theorem sameSlice_of_onSlice (hxlen : x.length = axes.length) (hylen : y.length = axes.length)
    (hx : onSlice axes x) (hy : onSlice axes y) : SameSlice axes x y := by
  induction axes generalizing x y with
  | nil =>
    rw [length_nil, length_eq_zero_iff] at hxlen hylen
    rw [hxlen, hylen]
    trivial
  | cons a axes ih =>
    cases x with
    | nil => cases hxlen
    | cons x xs =>
      cases y with
      | nil => cases hylen
      | cons y ys =>
        rw [onSlice, Bool.and_eq_true] at hx hy
        refine ⟨fun hs => ?_, ih (Nat.succ.inj hxlen) (Nat.succ.inj hylen) hx.2 hy.2⟩
        rcases Option.ne_none_iff_exists'.mp hs with ⟨s, hs⟩
        rw [hs] at hx hy
        exact (of_decide_eq_true hx.1).trans (of_decide_eq_true hy.1).symm

theorem round_cons (a : Axis) (axes : List Axis) (x : Int) (xs : Coordinates) :
    getChunkPositionFor (dims (a :: axes)) (x :: xs) =
      getChunkPosition a.input x :: getChunkPositionFor (dims axes) xs :=
  rfl

/-- The chunk start of the slice. -/
theorem eq_chunk_of_slice {x s : Int} (hx : a.input.IsChunkStart x)
    (h : x ≤ s ∧ s < x + a.input.chunkInterval) : getChunkPosition a.input s = x :=
  (getChunkPosition_eq_iff hx.2.2).mpr h

theorem sameSlice_of_meets (hx : IsChunkPosition (dims axes) x) (hy : IsChunkPosition (dims axes) y)
    (hxm : meetsSlice axes x) (hym : meetsSlice axes y) : SameSlice axes x y := by
  induction axes generalizing x y with
  | nil =>
    cases hx
    cases hy
    trivial
  | cons a axes ih =>
    cases hx with
    | cons hx hxs =>
      cases hy with
      | cons hy hys =>
        rw [meetsSlice, Bool.and_eq_true] at hxm hym
        refine ⟨fun hs => ?_, ih hxs hys hxm.2 hym.2⟩
        rcases Option.ne_none_iff_exists'.mp hs with ⟨s, hs⟩
        rw [hs] at hxm hym
        exact (eq_chunk_of_slice hx (of_decide_eq_true hxm.1)).symm.trans
          (eq_chunk_of_slice hy (of_decide_eq_true hym.1))

theorem length_of_inArea {withOverlap : Bool} (h : inArea withOverlap axes c x) :
    x.length = axes.length := by
  induction axes generalizing c x with
  | nil => cases c <;> cases x <;> first | rfl | cases h
  | cons a axes ih =>
    cases c <;> cases x <;> try cases h
    rw [inArea, Bool.and_eq_true] at h
    rw [length_cons, length_cons, ih h.2]

/-- A cell of the area without overlap is in the chunk. -/
theorem chunk_of_inArea (hc : IsChunkPosition (dims axes) c) (h : inArea false axes c x) :
    getChunkPositionFor (dims axes) x = c := by
  induction axes generalizing c x with
  | nil =>
    cases hc
    rfl
  | cons a axes ih =>
    cases hc with
    | @cons _ y _ ys hy hys =>
      cases x with
      | nil => cases h
      | cons x xs =>
        rw [inArea, Bool.and_eq_true, decide_eq_true_iff] at h
        have hrange : y ≤ x ∧ x < y + a.input.chunkInterval := by
          have hlast := h.1.2
          unfold Axis.lastPosition at hlast
          have hfirst := h.1.1
          unfold Axis.firstPosition at hfirst
          simp only [Bool.false_eq_true, if_false] at hfirst hlast
          omega
        rw [round_cons, eq_chunk_of_slice hy hrange, ih hys h.2]

/-- A cell of the chunk is in its area without overlap if it is not one of another chunk. -/
theorem inArea_core (h : inArea true axes c x) (hc : IsChunkPosition (dims axes) c)
    (hx : getChunkPositionFor (dims axes) x = c) :
    inArea false axes c x := by
  induction axes generalizing c x with
  | nil => cases c <;> cases x <;> first | rfl | cases h
  | cons a axes ih =>
    cases hc with
    | @cons _ y _ ys hy hys =>
      cases x with
      | nil => cases h
      | cons x xs =>
        rw [inArea, Bool.and_eq_true, decide_eq_true_iff] at h ⊢
        rcases List.cons.inj hx with ⟨hhead, htail⟩
        have hrange := (getChunkPosition_eq_iff hy.2.2).mp hhead
        refine ⟨?_, ih h.2 hys htail⟩
        have hlast := h.1.2
        unfold Axis.lastPosition at hlast ⊢
        unfold Axis.firstPosition
        simp only [Bool.false_eq_true, if_false] at hlast ⊢
        omega

theorem meets_of_onSlice (hc : IsChunkPosition (dims axes) c)
    (hx : getChunkPositionFor (dims axes) x = c) (h : onSlice axes x) : meetsSlice axes c := by
  induction axes generalizing c x with
  | nil =>
    rfl
  | cons a axes ih =>
    cases hc with
    | @cons _ y _ ys hy hys =>
      cases x with
      | nil => cases hx
      | cons x xs =>
        rw [onSlice, Bool.and_eq_true] at h
        rcases List.cons.inj hx with ⟨hhead, htail⟩
        have hrange := (getChunkPosition_eq_iff hy.2.2).mp hhead
        rw [meetsSlice, Bool.and_eq_true]
        refine ⟨?_, ih hys htail h.2⟩
        cases hs : a.slice with
        | none => rfl
        | some s =>
          rw [hs] at h
          rw [of_decide_eq_true h.1] at hrange
          exact decide_eq_true hrange

theorem inPosOf_mapPos (hlen : x.length = axes.length) (h : onSlice axes x) :
    inPosOf axes (mapPos axes x) = x := by
  induction axes generalizing x with
  | nil => exact (length_eq_zero_iff.mp hlen).symm
  | cons a axes ih =>
    cases x with
    | nil => cases hlen
    | cons x xs =>
      rw [onSlice, Bool.and_eq_true] at h
      have hrest := ih (Nat.succ.inj hlen) h.2
      rw [mapPos]
      cases hs : a.slice with
      | none =>
        rw [inPosOf_free hs, hrest]
      | some s =>
        rw [hs] at h
        rw [inPosOf_sliced hs, hrest, of_decide_eq_true h.1]

namespace SliceArray

variable {S : SliceArray V} {c : Coordinates × Chunk V} {ignoreOverlaps : Bool}

theorem mem_chunks : c ∈ S.chunks ↔ c ∈ S.input.chunks.entries ∧ meetsSlice S.axes c.1 :=
  mem_filter

theorem chunks_sorted : Sorted S.chunks :=
  S.input.chunks.sorted.sublist filter_sublist

theorem chunks_increase : (S.chunks.map fun c => mapPos S.axes c.1).Pairwise (· < ·) := by
  rw [pairwise_map]
  apply chunks_sorted.imp_of_mem
  intro c c' hc hc' hlt
  rw [mem_chunks] at hc hc'
  exact mapPos_lt (sameSlice_of_meets (S.input.isChunkPosition c hc.1)
    (S.input.isChunkPosition c' hc'.1) hc.2 hc'.2) hlt

theorem cells_increase (hc : c ∈ S.input.chunks.entries) :
    ((S.cells ignoreOverlaps c).map Prod.fst).Pairwise (· < ·) := by
  rw [cells, map_map, pairwise_map]
  have hsorted : Sorted ((visibleCells S.axes ignoreOverlaps c).filter
      fun e => onSlice S.axes e.1) :=
    (c.2.sorted.sublist filter_sublist).sublist filter_sublist
  apply hsorted.imp_of_mem
  intro e e' he he' hlt
  rw [mem_filter] at he he'
  exact mapPos_lt (sameSlice_of_onSlice (length_of_inArea (inArea_of_visible hc he.1))
    (length_of_inArea (inArea_of_visible hc he'.1)) he.2 he'.2) hlt

/-- The cells of the output without overlap. -/
theorem mem_cells_core {pos : Coordinates} {v : V} (hc : c ∈ S.chunks) :
    (pos, some v) ∈ S.cells true c ↔ ∃ x, onSlice S.axes x ∧ mapPos S.axes x = pos ∧
      getChunkPositionFor (dims S.axes) x = c.1 ∧ c.2.get x = some v := by
  have hentry := (mem_chunks.mp hc).1
  have hpos := S.input.isChunkPosition c hentry
  rw [cells, mem_map]
  constructor
  · rintro ⟨e, he, heq⟩
    rw [mem_filter] at he
    cases heq
    exact ⟨e.1, he.2, rfl, chunk_of_inArea hpos (inArea_of_visible hentry he.1),
      mem_entries.mp (mem_of_mem_filter he.1)⟩
  · rintro ⟨x, hslice, rfl, hchunk, hget⟩
    have hmem := mem_entries.mpr hget
    have hcore := inArea_core (S.input.cells_in c hentry _ hmem) hpos hchunk
    refine ⟨(x, v), mem_filter.mpr ⟨mem_filter.mpr ⟨hmem, ?_⟩, hslice⟩, rfl⟩
    simpa using hcore

theorem mem_cells_iff_inputCell (pos : Coordinates) (v : V) :
    (∃ c ∈ S.chunks, (pos, some v) ∈ S.cells true c) ↔
      ∃ x, onSlice S.axes x ∧ mapPos S.axes x = pos ∧ S.inputCell x = some v := by
  constructor
  · rintro ⟨c, hc, hmem⟩
    rcases (mem_cells_core hc).mp hmem with ⟨x, hslice, hpos, hchunk, hget⟩
    refine ⟨x, hslice, hpos, ?_⟩
    rw [inputCell, hchunk, mem_entries.mp (mem_chunks.mp hc).1, Option.bind_some, hget]
  · rintro ⟨x, hslice, hpos, hcell⟩
    rcases Option.bind_eq_some_iff.mp hcell with ⟨chunk, hchunk, hget⟩
    have hentry := mem_entries.mpr hchunk
    have hc : (getChunkPositionFor (dims S.axes) x, chunk) ∈ S.chunks :=
      mem_chunks.mpr ⟨hentry, meets_of_onSlice (S.input.isChunkPosition _ hentry) rfl hslice⟩
    exact ⟨_, hc, (mem_cells_core hc).mpr ⟨x, hslice, hpos, rfl, hget⟩⟩

theorem cells_nodup : (S.chunks.flatMap fun c => (S.cells true c).map Prod.fst).Nodup := by
  rw [nodup_flatMap]
  constructor
  · intro c hc
    exact (cells_increase (mem_chunks.mp hc).1).imp fun h => h.ne
  · apply chunks_sorted.imp_of_mem
    intro c c' hc hc' hlt pos hpos hpos'
    -- a position in two chunks would come from one position of the input
    have hinput : ∀ c ∈ S.chunks, pos ∈ (S.cells true c).map Prod.fst →
        getChunkPositionFor (dims S.axes) (inPosOf S.axes pos) = c.1 := by
      intro c hc hmem
      have hentry := (mem_chunks.mp hc).1
      rw [cells, map_map] at hmem
      rcases mem_map.mp hmem with ⟨e, he, rfl⟩
      rw [mem_filter] at he
      have harea := inArea_of_visible hentry he.1
      rw [Function.comp_apply, inPosOf_mapPos (length_of_inArea harea) he.2]
      exact chunk_of_inArea (S.input.isChunkPosition c hentry) harea
    exact hlt.ne ((hinput c hc hpos).symm.trans (hinput c' hc' hpos'))

/-- What the general chunk iterator shows. -/
theorem general_cells (hlen : S.axes.length ≤ 64) (hc : c ∈ S.input.chunks.entries) :
    ∃ l, Enumerates (S.nextCell ignoreOverlaps c) (S.restartCells ignoreOverlaps c) l ∧
      l.map (S.showCell c) = S.cells ignoreOverlaps c := by
  refine ⟨_, cells_enumerates hlen hc, ?_⟩
  rw [map_map]
  apply map_congr_left
  intro e he
  have hmem := mem_of_mem_filter (mem_of_mem_filter he)
  rw [Function.comp_apply, showCell, mem_entries.mp hmem]

/-- The simple chunk iterator is exact if no visible cell is beside the slice. -/
theorem simpleCells_eq_iff :
    S.simpleCells ignoreOverlaps c = S.cells ignoreOverlaps c ↔
      ∀ e ∈ visibleCells S.axes ignoreOverlaps c, onSlice S.axes e.1 := by
  constructor
  · intro h
    have hlen := congrArg List.length h
    rw [simpleCells, cells, length_map, length_map] at hlen
    exact length_filter_eq_length_iff.mp hlen.symm
  · intro h
    rw [cells, filter_eq_self.mpr h]
    apply map_congr_left
    intro e he
    rw [showCell, mem_entries.mp (mem_of_mem_filter he)]

theorem simple_iff :
    (∀ c ∈ S.chunks, ∀ ignoreOverlaps, S.simpleCells ignoreOverlaps c = S.cells ignoreOverlaps c) ↔
      ∀ c ∈ S.chunks, ∀ e ∈ c.2.entries, onSlice S.axes e.1 := by
  constructor
  · intro h c hc e he
    apply simpleCells_eq_iff.mp (h c hc false)
    exact mem_filter.mpr ⟨he, rfl⟩
  · intro h c hc ignoreOverlaps
    exact simpleCells_eq_iff.mpr fun e he => h c hc e (mem_of_mem_filter he)

end SliceArray
/-! ## The chunks that the finite iterator tries -/

theorem getChunkPosition_self {d : DimensionDesc} {y : Int} (h : d.IsChunkStart y) :
    getChunkPosition d y = y :=
  (getChunkPosition_eq_iff h.2.2).mpr ⟨le_rfl, by have := d.interval_pos; omega⟩

theorem getChunkPosition_add (d : DimensionDesc) (x k : Int) :
    getChunkPosition d (x + k * d.chunkInterval) = getChunkPosition d x + k * d.chunkInterval := by
  rw [getChunkPosition_eq, getChunkPosition_eq,
    add_sub_right_comm x _ d.startMin, Int.add_mul_emod_self_right]
  ring

/-- The chunk starts of the coordinates that are tried in a dimension. -/
def chunkStartsOf (a : Axis) : List Int :=
  (chunkValues a).map (getChunkPosition a.input)

theorem chunkStartsOf_pairwise (a : Axis) : (chunkStartsOf a).Pairwise (· < ·) := by
  unfold chunkStartsOf chunkValues
  cases a.slice with
  | some s => exact pairwise_singleton _ _
  | none =>
    rw [pairwise_map]
    apply a.input.chunkStarts_pairwise.imp_of_mem
    intro x y hx hy hlt
    rw [getChunkPosition_self (a.input.mem_chunkStarts.mp hx),
      getChunkPosition_self (a.input.mem_chunkStarts.mp hy)]
    exact hlt

theorem mem_chunkStartsOf {y : Int} (hy : a.input.IsChunkStart y) :
    y ∈ chunkStartsOf a ↔ ∀ s, a.slice = some s → y ≤ s ∧ s < y + a.input.chunkInterval := by
  unfold chunkStartsOf chunkValues
  cases a.slice with
  | some s =>
    rw [map_singleton, mem_singleton, eq_comm, getChunkPosition_eq_iff hy.2.2]
    simp
  | none =>
    refine ⟨fun _ s hs => (by cases hs), fun _ => ?_⟩
    exact mem_map.mpr ⟨y, a.input.mem_chunkStarts.mpr hy, getChunkPosition_self hy⟩

theorem meetsSlice_cons {y : Int} {ys : Coordinates} :
    meetsSlice (a :: axes) (y :: ys) ↔
      (∀ s, a.slice = some s → y ≤ s ∧ s < y + a.input.chunkInterval) ∧ meetsSlice axes ys := by
  rw [meetsSlice]
  cases a.slice with
  | none => simp
  | some s => simp

theorem map_rowMajor (axes : List Axis) :
    (rowMajor (axes.map chunkValues)).map (getChunkPositionFor (dims axes)) =
      rowMajor (axes.map chunkStartsOf) := by
  induction axes with
  | nil => rfl
  | cons a axes ih =>
    rw [map_cons, map_cons, rowMajor, rowMajor, map_flatMap, ← ih, chunkStartsOf, flatMap_map]
    apply flatMap_congr
    intro x _
    rw [map_map, map_map]
    rfl

/-- The finite iterator tries the chunk positions of the slice. -/
theorem mem_rowMajor_iff (hy : IsChunkPosition (dims axes) y) :
    y ∈ rowMajor (axes.map chunkStartsOf) ↔ meetsSlice axes y := by
  rw [mem_rowMajor, forall₂_map_left_iff]
  induction axes generalizing y with
  | nil =>
    cases hy
    simp [meetsSlice]
  | cons a axes ih =>
    cases hy with
    | cons hy hys => rw [forall₂_cons, ih hys, mem_chunkStartsOf hy, meetsSlice_cons]

theorem rowMajor_increases (axes : List Axis) :
    (rowMajor (axes.map chunkStartsOf)).Pairwise (· < ·) := by
  apply rowMajor_pairwise
  intro l hl
  rcases mem_map.mp hl with ⟨a, -, rfl⟩
  exact chunkStartsOf_pairwise a

/-- From a position the finite iterator comes to a chunk: in the first coordinate where
they differ, the distance of the position from the start of its chunk fits also into the
later one. -/
def Passes : List Axis → Coordinates → Coordinates → Prop
  | a :: axes, x :: xs, y :: ys =>
    y = getChunkPosition a.input x ∧ Passes axes xs ys ∨
      a.slice = none ∧ getChunkPosition a.input x < y ∧
        y + (x - getChunkPosition a.input x) ≤ a.input.endMax ∧ meetsSlice axes ys
  | _, _, _ => False

/-- The chunk starts behind a coordinate. -/
theorem mem_chunkTail_iff {x y : Int} (hy : a.input.IsChunkStart y) :
    y ∈ (chunkTail a x).map (getChunkPosition a.input) ↔
      a.slice = none ∧ getChunkPosition a.input x < y ∧
        y + (x - getChunkPosition a.input x) ≤ a.input.endMax := by
  have hpos := a.input.interval_pos
  unfold chunkTail
  cases hs : a.slice with
  | some s => simp
  | none =>
    simp only [mem_map, mem_stepsFrom, true_and]
    constructor
    · rintro ⟨z, ⟨k, rfl, hle⟩, rfl⟩
      have := Int.mul_pos (show (0 : Int) < k + 1 by omega) hpos
      rw [getChunkPosition_add]
      omega
    · rintro ⟨hlt, hle⟩
      -- both are chunk starts
      have hdvd : a.input.chunkInterval ∣ y - getChunkPosition a.input x := by
        have := dvd_sub hy.2.2 (dvd_getChunkPosition a.input x)
        rwa [sub_sub_sub_cancel_right] at this
      rcases hdvd with ⟨k, hk⟩
      have hk1 : 1 ≤ k := by
        by_contra hk0
        have := Int.mul_le_mul_of_nonneg_left (show k ≤ 0 by omega) hpos.le
        omega
      have hsum : (((k - 1).toNat : Int) + 1) * a.input.chunkInterval =
          y - getChunkPosition a.input x := by
        rw [hk, Int.toNat_of_nonneg (by omega)]
        ring
      refine ⟨y + (x - getChunkPosition a.input x), ⟨(k - 1).toNat, by omega, hle⟩, ?_⟩
      rw [show y + (x - getChunkPosition a.input x) = x + k * a.input.chunkInterval by
        rw [mul_comm]; omega, getChunkPosition_add]
      rw [mul_comm]
      omega

/-- The chunks that the finite iterator goes on to. -/
theorem mem_later_iff (hp : Inside axes p) (hy : IsChunkPosition (dims axes) y) :
    y ∈ (later chunkTail chunkValues axes p).map (getChunkPositionFor (dims axes)) ↔
      Passes axes p y := by
  induction axes generalizing p y with
  | nil =>
    simp [later, Passes]
  | cons a axes ih =>
    cases hp with
    | @cons _ x _ xs hx hxs =>
      cases hy with
      | @cons _ y _ ys hy hys =>
        have htail := mem_chunkTail_iff (x := x) hy
        have hrest := mem_rowMajor_iff hys
        rw [← map_rowMajor] at hrest
        rw [Passes, ← ih hxs hys, ← hrest, ← and_assoc, ← and_assoc,
          and_assoc (a := a.slice = none), ← htail]
        simp only [later, map_append, mem_append, mem_map, mem_flatMap]
        apply or_congr
        · constructor
          · rintro ⟨q, ⟨r, hr, rfl⟩, hq⟩
            rcases List.cons.inj hq with ⟨rfl, rfl⟩
            exact ⟨rfl, r, hr, rfl⟩
          · rintro ⟨rfl, r, hr, rfl⟩
            exact ⟨x :: r, ⟨r, hr, rfl⟩, rfl⟩
        · constructor
          · rintro ⟨q, ⟨z, hz, r, hr, rfl⟩, hq⟩
            rcases List.cons.inj hq with ⟨rfl, rfl⟩
            exact ⟨⟨z, hz, rfl⟩, r, hr, rfl⟩
          · rintro ⟨⟨z, hz, rfl⟩, r, hr, rfl⟩
            exact ⟨z :: r, ⟨z, hz, r, hr, rfl⟩, rfl⟩

theorem chunkTail_pairwise (a : Axis) (x : Int) :
    (chunkTail a x).Pairwise fun y z => getChunkPosition a.input y < getChunkPosition
    a.input z := by
  unfold chunkTail
  cases a.slice with
  | some s => exact List.Pairwise.nil
  | none =>
    apply (stepsFrom_pairwise a.input x).imp_of_mem
    intro y z hy hz hlt
    rcases mem_stepsFrom.mp hy with ⟨j, rfl, -⟩
    rcases mem_stepsFrom.mp hz with ⟨k, rfl, -⟩
    rw [getChunkPosition_add, getChunkPosition_add]
    omega

theorem lt_of_mem_chunkTail {x y : Int} (h : y ∈ chunkTail a x) :
    getChunkPosition a.input x < getChunkPosition a.input y := by
  unfold chunkTail at h
  split at h
  · cases h
  · rcases mem_stepsFrom.mp h with ⟨k, rfl, -⟩
    have := Int.mul_pos (show (0 : Int) < k + 1 by omega) a.input.interval_pos
    rw [getChunkPosition_add]
    omega

/-- It goes on in row-major order. -/
theorem later_increases (axes : List Axis) (p : Coordinates) :
    ((later chunkTail chunkValues axes p).map (getChunkPositionFor (dims axes))).Pairwise
      (· < ·) := by
  induction axes generalizing p with
  | nil => cases p <;> exact List.Pairwise.nil
  | cons a axes ih =>
    cases p with
    | nil => exact List.Pairwise.nil
    | cons x xs =>
      rw [later, map_append, pairwise_append]
      refine ⟨?_, ?_, ?_⟩
      · have := ih xs
        rw [pairwise_map] at this
        rw [pairwise_map, pairwise_map]
        exact this.imp fun h => List.Lex.cons h
      · have hrest := rowMajor_increases axes
        rw [← map_rowMajor, pairwise_map] at hrest
        rw [pairwise_map, pairwise_flatMap]
        constructor
        · intro y _
          rw [pairwise_map]
          exact hrest.imp fun h => List.Lex.cons h
        · refine (chunkTail_pairwise a x).imp ?_
          intro y z hlt q hq q' hq'
          rcases mem_map.mp hq with ⟨r, -, rfl⟩
          rcases mem_map.mp hq' with ⟨r', -, rfl⟩
          exact List.Lex.rel hlt
      · intro q hq q' hq'
        rcases mem_map.mp hq with ⟨_, hr, rfl⟩
        rcases mem_map.mp hr with ⟨r, -, rfl⟩
        rcases mem_map.mp hq' with ⟨_, hr', rfl⟩
        rcases mem_flatMap.mp hr' with ⟨y, hy, hr''⟩
        rcases mem_map.mp hr'' with ⟨r', -, rfl⟩
        exact List.Lex.rel (lt_of_mem_chunkTail hy)

/-- A sliced coordinate is rounded to the start of every chunk of the slice. -/
theorem eq_of_meets {x y : Int} (hx : ∀ s, a.slice = some s → x = s) (hy : a.input.IsChunkStart y)
    (h : ∀ s, a.slice = some s → y ≤ s ∧ s < y + a.input.chunkInterval) (hs : a.slice ≠ none) :
    y = getChunkPosition a.input x := by
  rcases Option.ne_none_iff_exists'.mp hs with ⟨s, hs⟩
  rw [hx s hs]
  exact ((getChunkPosition_eq_iff hy.2.2).mpr (h s hs)).symm

/-- The iterator only comes to later chunks of the slice. -/
theorem passes_lt (hp : Inside axes p) (hy : IsChunkPosition (dims axes) y) (h : Passes axes p y) :
    meetsSlice axes y ∧ getChunkPositionFor (dims axes) p < y := by
  induction axes generalizing p y with
  | nil =>
    cases h
  | cons a axes ih =>
    cases hp with
    | @cons _ x _ xs hx hxs =>
      cases hy with
      | @cons _ y _ ys hy hys =>
        rw [meetsSlice_cons, round_cons, cons_lt_cons_iff]
        rcases h with ⟨rfl, h⟩ | ⟨hfree, hlt, -, hmeets⟩
        · rcases ih hxs hys h with ⟨hmeets, hlt⟩
          refine ⟨⟨fun s hs => ?_, hmeets⟩, .inr ⟨rfl, hlt⟩⟩
          rw [hx.2.2 s hs]
          exact (getChunkPosition_eq_iff (dvd_getChunkPosition a.input s)).mp rfl
        · refine ⟨⟨fun s hs => ?_, hmeets⟩, .inl hlt⟩
          rw [hfree] at hs
          cases hs

/-- It comes to a later chunk that is not cut off. -/
theorem passes_of_full (hp : Inside axes p) (hy : IsChunkPosition (dims axes) y)
    (hmeets : meetsSlice axes y) (hlt : getChunkPositionFor (dims axes) p < y)
    (hfull : FullWhereDiffers axes (getChunkPositionFor (dims axes) p) y) : Passes axes p y := by
  induction axes generalizing p y with
  | nil =>
    cases hy
    exact absurd hlt (lt_irrefl _)
  | cons a axes ih =>
    cases hp with
    | @cons _ x _ xs hx hxs =>
      cases hy with
      | @cons _ y _ ys hy hys =>
        rw [round_cons] at hlt hfull
        rw [meetsSlice_cons] at hmeets
        rw [cons_lt_cons_iff] at hlt
        rcases hlt with hlt | ⟨heq, hlt⟩
        · right
          have hrange := (getChunkPosition_eq_iff (dvd_getChunkPosition a.input x)).mp rfl
          have hend := hfull.2 hlt
          refine ⟨?_, hlt, by omega, hmeets.2⟩
          by_contra hs
          exact hlt.ne' (eq_of_meets hx.2.2 hy hmeets.1 hs)
        · left
          exact ⟨heq.symm, ih hxs hys hmeets.2 hlt (hfull.1 heq)⟩

/-! ## Positions of a chunk -/

/-- A position of the chunk at `c`, chosen coordinate by coordinate. -/
def picked (pick : Axis → Int → Int → Int) : List Axis → Coordinates → Coordinates → Coordinates
  | a :: axes, x :: xs, y :: ys => a.slice.getD (pick a x y) :: picked pick axes xs ys
  | _, _, _ => []

/-- The chosen coordinate is one of the chunk at `x`. -/
def PicksIn (pick : Axis → Int → Int → Int) : Prop :=
  ∀ (a : Axis) x y, a.input.IsChunkStart x → a.input.IsChunkStart y →
    x ≤ pick a x y ∧ pick a x y < x + a.input.chunkInterval ∧ pick a x y ≤ a.input.endMax

theorem picked_spec (hpick : PicksIn pick)
    (hc : IsChunkPosition (dims axes) c) (hc' : IsChunkPosition (dims axes) c')
    (hmeets : meetsSlice axes c) :
    Inside axes (picked pick axes c c') ∧
      getChunkPositionFor (dims axes) (picked pick axes c c') = c := by
  induction axes generalizing c c' with
  | nil =>
    cases hc
    exact ⟨.nil, rfl⟩
  | cons a axes ih =>
    cases hc with
    | @cons _ x _ xs hx hxs =>
      cases hc' with
      | @cons _ y _ ys hy hys =>
        rw [meetsSlice_cons] at hmeets
        rcases ih hxs hys hmeets.2 with ⟨hinside, hround⟩
        have hhead : (a.input.startMin ≤ a.slice.getD (pick a x y) ∧
            a.slice.getD (pick a x y) ≤ a.input.endMax ∧
            ∀ s, a.slice = some s → a.slice.getD (pick a x y) = s) ∧
            getChunkPosition a.input (a.slice.getD (pick a x y)) = x := by
          cases hs : a.slice with
          | none =>
            rcases hpick a x y hx hy with ⟨hge, hlt, hle⟩
            have hstart := hx.1
            exact ⟨⟨by rw [Option.getD_none]; omega, hle, fun s h => by cases h⟩,
              eq_chunk_of_slice hx ⟨hge, hlt⟩⟩
          | some s =>
            have hmem := a.slice_mem s hs
            refine ⟨⟨hmem.1, hmem.2, fun s' h => by cases h; rfl⟩, ?_⟩
            exact eq_chunk_of_slice hx (hmeets.1 s hs)
        refine ⟨.cons hhead.1 hinside, ?_⟩
        rw [picked, round_cons, hhead.2, hround]

theorem mem_zip_picked (pick : Axis → Int → Int → Int) (hc : IsChunkPosition (dims axes) c)
    (ha : a ∈ axes) :
    ∃ x, a.input.IsChunkStart x ∧
      (a, a.slice.getD (pick a x x)) ∈ axes.zip (picked pick axes c c) := by
  induction axes generalizing c with
  | nil => cases ha
  | cons b axes ih =>
    cases hc with
    | @cons _ x _ xs hx hxs =>
      rcases mem_cons.mp ha with rfl | ha
      · exact ⟨x, hx, mem_cons_self⟩
      · rcases ih hxs ha with ⟨y, hy, hmem⟩
        exact ⟨y, hy, mem_cons_of_mem _ hmem⟩

/-- As far from the start of the chunk as possible wherever the other one lies behind. -/
def farCorner (a : Axis) (x y : Int) : Int :=
  if x < y then x + a.input.chunkInterval - 1 else x

theorem farCorner_picksIn : PicksIn farCorner := by
  intro a x y hx hy
  have hpos := a.input.interval_pos
  have hend := hx.2.1
  unfold farCorner
  split
  · have hle : a.input.chunkInterval ≤ y - x := by
      apply Int.le_of_dvd (by omega)
      have := dvd_sub hy.2.2 hx.2.2
      rwa [sub_sub_sub_cancel_right] at this
    have := hy.2.1
    omega
  · omega

/-- From there the iterator only comes to chunks that are not cut off. -/
theorem full_of_passes (hc : IsChunkPosition (dims axes) c) (hc' : IsChunkPosition (dims axes) c')
    (hmeets : meetsSlice axes c) (h : Passes axes (picked farCorner axes c c') c') :
    FullWhereDiffers axes c c' := by
  induction axes generalizing c c' with
  | nil =>
    trivial
  | cons a axes ih =>
    cases hc with
    | @cons _ x _ xs hx hxs =>
      cases hc' with
      | @cons _ y _ ys hy hys =>
        have hcx : IsChunkPosition (dims (a :: axes)) (x :: xs) := .cons hx hxs
        have hcy : IsChunkPosition (dims (a :: axes)) (y :: ys) := .cons hy hys
        have hround := (picked_spec farCorner_picksIn hcx hcy hmeets).2
        rw [meetsSlice_cons] at hmeets
        have hhead : getChunkPosition a.input (a.slice.getD (farCorner a x y)) = x :=
          (List.cons.inj hround).1
        rw [picked, Passes, hhead] at h
        rcases h with ⟨rfl, h⟩ | ⟨hfree, hlt, hle, -⟩
        · exact ⟨fun _ => ih hxs hys hmeets.2 h, fun hlt => absurd hlt (lt_irrefl _)⟩
        · refine ⟨fun heq => absurd heq hlt.ne, fun _ => ?_⟩
          rw [hfree, Option.getD_none, farCorner] at hle
          omega

/-- A coordinate of the chunk from which steps of a chunk lead to the end of the
dimension. -/
def endCorner (a : Axis) (x _ : Int) : Int :=
  x + (a.input.endMax - x) % a.input.chunkInterval

theorem endCorner_picksIn : PicksIn endCorner := by
  intro a x y hx _
  have hpos := a.input.interval_pos
  have hge := Int.emod_nonneg (a.input.endMax - x) hpos.ne'
  have hlt := Int.emod_lt_of_pos (a.input.endMax - x) hpos
  have hquot := Int.mul_nonneg hpos.le
    (Int.ediv_nonneg (show 0 ≤ a.input.endMax - x by have := hx.2.1; omega) hpos.le)
  have hsum := Int.emod_add_mul_ediv (a.input.endMax - x) a.input.chunkInterval
  unfold endCorner
  omega

theorem dvd_endCorner (a : Axis) (x y : Int) :
    a.input.chunkInterval ∣ a.input.endMax - endCorner a x y := by
  rw [endCorner, ← sub_sub]
  exact Int.dvd_self_sub_emod

/-! ## Exactness -/

namespace SliceArray

variable {S : SliceArray V} {c : Coordinates × Chunk V} {q : Coordinates}

theorem chunkAt_eq_some :
    S.chunkAt q = some c ↔ getChunkPositionFor (dims S.axes) q = c.1 ∧
      c ∈ S.input.chunks.entries := by
  rw [chunkAt, Option.map_eq_some_iff]
  constructor
  · rintro ⟨chunk, hchunk, rfl⟩
    exact ⟨rfl, mem_entries.mpr hchunk⟩
  · rintro ⟨hpos, hmem⟩
    exact ⟨c.2, by rw [hpos, mem_entries.mp hmem], by rw [hpos]⟩

/-- The chunks at a list of positions. -/
theorem map_chunkAt {l : List Coordinates} {expected : List (Coordinates × Chunk V)}
    (hl : (l.map (getChunkPositionFor (dims S.axes))).Pairwise (· < ·)) (hsorted : Sorted expected)
    (hmem : ∀ c, c ∈ expected ↔ c ∈ S.input.chunks.entries ∧
      c.1 ∈ l.map (getChunkPositionFor (dims S.axes))) :
    (l.filter fun q => (S.chunkAt q).isSome).map S.chunkAt = expected.map some := by
  have hfilter : ∀ l : List Coordinates, (l.filter fun q => (S.chunkAt q).isSome).map S.chunkAt =
      (l.filterMap S.chunkAt).map some := by
    intro l
    induction l with
    | nil => rfl
    | cons q l ih =>
      cases hq : S.chunkAt q with
      | none => rw [filter_cons_of_neg (by simp [hq]), ih, filterMap_cons_none hq]
      | some c =>
        rw [filter_cons_of_pos (by simp [hq]), map_cons, ih, filterMap_cons_some hq, map_cons, hq]
  have hl' : Sorted (l.filterMap S.chunkAt) := by
    rw [pairwise_map] at hl
    rw [Sorted, pairwise_filterMap]
    refine hl.imp fun {q q'} hlt c hc c' hc' => ?_
    rw [← (chunkAt_eq_some.mp hc).1, ← (chunkAt_eq_some.mp hc').1]
    exact hlt
  rw [hfilter]
  congr 1
  apply hl'.ext_mem hsorted
  intro c
  rw [hmem, mem_filterMap, mem_map]
  constructor
  · rintro ⟨q, hq, hc⟩
    rw [chunkAt_eq_some] at hc
    exact ⟨hc.2, q, hq, hc.1⟩
  · rintro ⟨hc, q, hq, hpos⟩
    exact ⟨q, hq, chunkAt_eq_some.mpr ⟨hpos, hc⟩⟩

/-- Rounding a position that is tried leaves the free coordinates. -/
theorem mapPos_round (hq : q ∈ rowMajor (axes.map chunkValues)) :
    mapPos axes (getChunkPositionFor (dims axes) q) = mapPos axes q := by
  rw [mem_rowMajor, forall₂_map_left_iff] at hq
  induction hq with
  | nil => rfl
  | @cons a x axes xs hx _ ih =>
    rw [round_cons, mapPos, mapPos, ih]
    cases hs : a.slice with
    | some s => rfl
    | none =>
      rw [chunkValues, hs] at hx
      rw [getChunkPosition_self (a.input.mem_chunkStarts.mp hx)]

/-- The chunks that the finite iterator visits. -/
theorem map_positions :
    ((rowMajor (S.axes.map chunkValues)).filter fun q => (S.chunkAt q).isSome).map
        (fun q => (mapPos S.axes q, S.chunkAt q)) =
      S.chunks.map fun c => (mapPos S.axes c.1, some c) := by
  have hincrease := rowMajor_increases S.axes
  rw [← map_rowMajor] at hincrease
  have hchunks := map_chunkAt hincrease chunks_sorted (by
    intro c
    rw [mem_chunks, map_rowMajor]
    apply and_congr_right
    intro hc
    exact (mem_rowMajor_iff (S.input.isChunkPosition c hc)).symm)
  -- the position of a chunk is read off the chunk
  have hread : ((rowMajor (S.axes.map chunkValues)).filter fun q => (S.chunkAt q).isSome).map
        (fun q => (mapPos S.axes q, S.chunkAt q)) =
      (((rowMajor (S.axes.map chunkValues)).filter fun q => (S.chunkAt q).isSome).map
        S.chunkAt).map fun o => (mapPos S.axes ((o.map Prod.fst).getD []), o) := by
    rw [map_map]
    apply map_congr_left
    intro q hq
    rw [mem_filter] at hq
    rcases Option.isSome_iff_exists.mp hq.2 with ⟨c, hc⟩
    rw [Function.comp_apply, hc, Option.map_some, Option.getD_some,
      ← (chunkAt_eq_some.mp hc).1, mapPos_round hq.1]
  rw [hread, hchunks, map_map]
  rfl

variable {p : Coordinates}

/-- The chunks that it visits from a position on. -/
theorem map_later (hp : Inside S.axes p) (hc : S.chunkAt p = some c)
    (hfull : ∀ c' ∈ S.chunks, c.1 < c'.1 → FullWhereDiffers S.axes c.1 c'.1) :
    ((later chunkTail chunkValues S.axes p).filter fun q => (S.chunkAt q).isSome).map S.chunkAt =
      (S.chunks.filter fun c' => isAfter c.1 c'.1).map some := by
  apply map_chunkAt (later_increases S.axes p) (chunks_sorted.sublist filter_sublist)
  intro c'
  rw [mem_filter, mem_chunks, and_assoc, isAfter_iff]
  apply and_congr_right
  intro hc'
  have hpos := S.input.isChunkPosition c' hc'
  rw [mem_later_iff hp hpos]
  have hround := (chunkAt_eq_some.mp hc).1
  constructor
  · rintro ⟨hmeets, hlt⟩
    rw [← hround] at hlt
    exact passes_of_full hp hpos hmeets hlt
      (hround ▸ hfull c' (mem_chunks.mpr ⟨hc', hmeets⟩) (hround ▸ hlt))
  · intro h
    rw [← hround]
    exact passes_lt hp hpos h

theorem onSlice_of_inside (h : Inside axes p) : p.length = axes.length ∧ onSlice axes p := by
  refine ⟨h.length_eq.symm, ?_⟩
  induction h with
  | nil => rfl
  | @cons a x axes xs hx _ ih =>
    rw [onSlice, Bool.and_eq_true]
    refine ⟨?_, ih⟩
    cases hs : a.slice with
    | none => rfl
    | some s => exact decide_eq_true (hx.2.2 s hs)

/-- The infinite iterator from a chunk on. -/
theorem infinite_from (hfits : ∀ c ∈ S.input.chunks.entries, TestFits S.axes c.1)
    (hc : c ∈ S.chunks) :
    Visits List.head? S.infiniteNext (S.input.chunks.seek c.1)
      (S.chunks.filter fun c' => isFrom c.1 c'.1) := by
  rw [mem_chunks] at hc
  have hseek := seek_of_get (mem_entries.mp hc.1)
  have hfrom : S.chunks.filter (fun c' => isFrom c.1 c'.1) =
      (S.input.chunks.seek c.1).filter fun c' => meetsSlice S.axes c'.1 := by
    rw [seek_eq_filter, chunks, filter_filter, filter_filter]
    apply filter_congr
    intro c' _
    exact Bool.and_comm _ _
  rw [hfrom, hseek, filter_cons_of_pos (by simpa using hc.2)]
  have hrest : ∀ c' ∈ S.input.chunks.entries.filter fun e => isAfter c.1 e.1,
      c' ∈ S.input.chunks.entries := fun c' => mem_of_mem_filter
  rcases nextAvailable_visits (fun c' hc' => S.input.isChunkPosition c' (hrest c' hc'))
    (fun c' hc' => hfits c' (hrest c' hc')) with ⟨s, hs, hvisits⟩
  exact .more rfl hs hvisits

/-- A position inside of the bounds selects a chunk of the slice. -/
theorem mem_chunks_of_chunkAt (hp : Inside S.axes p) (hc : S.chunkAt p = some c) :
    c ∈ S.chunks := by
  rcases chunkAt_eq_some.mp hc with ⟨hround, hentry⟩
  exact mem_chunks.mpr ⟨hentry, meets_of_onSlice (S.input.isChunkPosition c hentry) hround
    (onSlice_of_inside hp).2⟩

/-- The iteration from a position of a chunk. -/
theorem exact_from_picked {c' : Coordinates × Chunk V}
    (hpick : PicksIn pick) (h : S.Exact) (hc : c ∈ S.chunks) (hc' : c' ∈ S.chunks) :
    Inside S.axes (picked pick S.axes c.1 c'.1) ∧
      getChunkPositionFor (dims S.axes) (picked pick S.axes c.1 c'.1) = c.1 ∧
      ∃ l, Enumerates S.moveNext (S.moveNext (picked pick S.axes c.1 c'.1)) l ∧
        l.map S.chunkAt = (S.chunks.filter fun c' => isAfter c.1 c'.1).map some := by
  rw [mem_chunks] at hc hc'
  rcases picked_spec hpick (S.input.isChunkPosition c hc.1) (S.input.isChunkPosition c' hc'.1)
    hc.2 with ⟨hinside, hround⟩
  have hpos : inPosOf S.axes (mapPos S.axes (picked pick S.axes c.1 c'.1)) =
      picked pick S.axes c.1 c'.1 :=
    inPosOf_mapPos (onSlice_of_inside hinside).1 (onSlice_of_inside hinside).2
  have hfrom := h.finite_from (mapPos S.axes (picked pick S.axes c.1 c'.1)) c
  rw [hpos] at hfrom
  exact ⟨hinside, hround, hfrom hinside (chunkAt_eq_some.mpr ⟨hround, hc.1⟩)⟩

theorem exact_of_regular (h : Regular S) : S.Exact where
  chunks_increase := chunks_increase
  cells_increase := fun c hc _ => cells_increase (mem_chunks.mp hc).1
  once := cells_nodup
  all := mem_cells_iff_inputCell
  finite := ⟨_, restart_enumerates h.dims_le h.back_fits h.last_fits, map_positions⟩
  finite_from := by
    intro pos c hin hc
    have hmem := mem_chunks_of_chunkAt hin hc
    have hend := h.end_fits (ne_nil_of_mem hmem)
    exact ⟨_, moveNext_enumerates h.dims_le h.last_fits hend hin, map_later hin hc (h.full c hmem)⟩
  infinite := nextAvailable_visits (fun c hc => S.input.isChunkPosition c hc) h.test_fits
  infinite_from := by
    intro pos c hin hc
    refine ⟨S.input.chunks.seek c.1, ?_, infinite_from h.test_fits (mem_chunks_of_chunkAt hin hc)⟩
    rw [infiniteSetPosition, hc]
    rfl
  general := fun c hc _ => general_cells h.dims_le (mem_chunks.mp hc).1
  simple := fun hsimple => simple_iff.mpr (h.beside hsimple)

theorem regular_of_exact (h : S.Exact) : Regular S := by
  rcases h.finite with ⟨l, hl, -⟩
  rcases fits_of_restart hl with ⟨hlen, hback, hlast⟩
  rcases h.infinite with ⟨s, hs, hvisits⟩
  have hend : S.chunks ≠ [] → ∀ a ∈ S.axes, a.slice = none →
      a.input.endMax + a.input.chunkInterval < 2 ^ 63 := by
    intro hne a ha hfree
    rcases exists_mem_of_ne_nil _ hne with ⟨c, hc⟩
    rcases exact_from_picked endCorner_picksIn h hc hc with ⟨hinside, -, l, hl, -⟩
    rcases mem_zip_picked endCorner (S.input.isChunkPosition c (mem_chunks.mp hc).1) ha with
      ⟨x, hx, hmem⟩
    rw [hfree] at hmem
    exact end_fits_of_enumerates hinside.length_eq hl hmem hfree
      (endCorner_picksIn a x x hx hx).2.2 (dvd_endCorner a x x)
  refine ⟨hlen, fun hsimple => simple_iff.mp (h.simple hsimple), ?_, hback, hlast, hend,
    testFits_of_visits hs hvisits⟩
  intro c hc c' hc' hlt
  rcases exact_from_picked farCorner_picksIn h hc hc' with ⟨hinside, hround, l, hl, hchunks⟩
  have hlater := moveNext_enumerates hlen hlast (hend (ne_nil_of_mem hc)) hinside
  have hvisited : some c' ∈ l.map S.chunkAt := by
    rw [hchunks]
    exact mem_map_of_mem (mem_filter.mpr ⟨hc', isAfter_iff.mpr hlt⟩)
  rw [hl.unique hlater] at hvisited
  rcases mem_map.mp hvisited with ⟨q, hq, hqc⟩
  rw [mem_chunks] at hc hc'
  have hpos' := S.input.isChunkPosition c' hc'.1
  apply full_of_passes (S.input.isChunkPosition c hc.1) hpos' hc.2
  rw [← mem_later_iff hinside hpos']
  exact mem_map.mpr ⟨q, mem_of_mem_filter hq, (chunkAt_eq_some.mp hqc).1⟩

/-- All iterators are exact if and only if the slice is regular. -/
theorem slice_exact_iff (S : SliceArray V) : S.Exact ↔ Regular S :=
  ⟨regular_of_exact, exact_of_regular⟩

end SliceArray

/-! ## Two slices that are not exact -/

/-- `0 .. 4` in chunks of 4, not sliced. -/
def cutOffAxis : Axis where
  input := .ofBounds 0 4 4 (by decide)
  overlap := 0
  slice := none
  overlap_nonneg := le_rfl
  slice_mem := by simp

/-- `0 .. 1` in chunks of 1 with overlap 1, sliced at 0. -/
def slicedAxis : Axis where
  input := .ofBounds 0 1 1 (by decide)
  overlap := 1
  slice := some 0
  overlap_nonneg := by decide
  slice_mem := by
    intro s hs
    cases hs
    decide

/-- The chunks at 0 and at 4 with one cell each. -/
def cutOff : SliceArray Nat where
  axes := [cutOffAxis, slicedAxis]
  input := {
    chunks := ⟨[([0, 0], ⟨[([0, 0], 1)], pairwise_singleton _ _⟩),
      ([4, 0], ⟨[([4, 0], 2)], pairwise_singleton _ _⟩)], by
        rw [Sorted, pairwise_pair]
        decide⟩
    isChunkPosition := by
      intro c hc
      rcases mem_pair.mp hc with rfl | rfl
      · exact .cons ⟨by decide, by decide, by decide⟩ (.cons ⟨by decide, by decide, by decide⟩ .nil)
      · exact .cons ⟨by decide, by decide, by decide⟩ (.cons ⟨by decide, by decide, by decide⟩ .nil)
    cells_in := by
      intro c hc e he
      rcases mem_pair.mp hc with rfl | rfl
      · rw [mem_singleton.mp he]
        decide
      · rw [mem_singleton.mp he]
        decide }
  exists_free := ⟨cutOffAxis, mem_cons_self, rfl⟩

/-- A chunk with a cell on the slice and one in its overlap. -/
def beside : SliceArray Nat where
  axes := [cutOffAxis, slicedAxis]
  input := {
    chunks := ⟨[([0, 0], ⟨[([0, 0], 1), ([0, 1], 2)], by
      rw [Sorted, pairwise_pair]
      decide⟩)], pairwise_singleton _ _⟩
    isChunkPosition := by
      intro c hc
      rw [mem_singleton.mp hc]
      exact .cons ⟨by decide, by decide, by decide⟩ (.cons ⟨by decide, by decide, by decide⟩ .nil)
    cells_in := by
      intro c hc e he
      rw [mem_singleton.mp hc] at he ⊢
      rcases mem_pair.mp he with rfl | rfl <;> decide }
  exists_free := ⟨cutOffAxis, mem_cons_self, rfl⟩

/-- After `setPosition(2)` the first slice is left without its chunk at 4, and the second
one shows two cells at the position 0. -/
theorem slice_is_not_exact : ¬cutOff.Exact ∧ ¬beside.Exact := by
  constructor
  · intro h
    have hfull := (SliceArray.regular_of_exact h).full ([0, 0], _) mem_cons_self ([4, 0], _)
      (mem_cons_of_mem _ mem_cons_self) (by decide)
    have hend := hfull.2 (by decide)
    exact absurd hend (by decide)
  · intro h
    have hbeside := (SliceArray.regular_of_exact h).beside rfl _ mem_cons_self ([0, 1], 2)
      (mem_cons_of_mem _ mem_cons_self)
    cases hbeside

end SciDB.Operators.Slice
