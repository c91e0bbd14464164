import SciDB.Operators.SubArray

/-!
# Subarray shows its window

A cell of the window is shown if the search at the corners of its output chunk finds
the input chunk that holds it, and the mapped iterator comes to that output chunk only
if it is in the chunk set.  Both can fail.

* The far corner of an output chunk may lie behind the end of the input, where the
  last input chunk is cut off, and an input that refuses such positions does not give
  its last chunk away.
* `addChunksToSet` gives up on an input chunk that starts in front of the window,
  although its cells may be in the first output chunk.

Main results:

- Theorem {lit}`reached_iff_of_refuses`: the far corners that have to be inside the input.
- Theorem {lit}`exactByEither_iff`: the output shows exactly the window, with either
  iterator, if and only if the input chunks of its cells are found and their output
  chunks are in the chunk set.
-/

namespace SciDB.Operators.SubArray

open SciDB.Distribution Odometer OrderedMap List

variable {A V : Type} {S : SubArray A V} {attr : A} {axes : List Axis} {o p x k pos : Coordinates}
  {v : V} {a : Axis} {y : Int} {limit : Axis → Int} {dims : List DimensionDesc}

/-! ## What the operator is for -/

/-- The position is in the window. -/
def InWindow (axes : List Axis) (x : Coordinates) : Prop :=
  List.Forall₂ (fun a x => a.low ≤ x ∧ x ≤ a.high) axes x

variable (S)

/-- The output chunk of a position of the input. -/
def outChunk (x : Coordinates) : Coordinates :=
  getChunkPositionFor S.dims (S.in2out x)

/-- An iterator that visits these chunks shows, at each position of the output, the
cell the input holds at the position moved into the window. -/
def Shows (attr : A) (visited : List Coordinates) : Prop :=
  visited.Pairwise (· < ·) ∧ ∀ p v,
    (∃ o ∈ visited, (S.getChunk attr o).lookup p = some v) ↔
      InOutput S.axes p ∧ ∃ t, S.input.cell (S.out2in p) = some t ∧ t attr = v

/-- The output chunk has a cell. -/
def nonEmpty (attr : A) (o : Coordinates) : Bool :=
  !(S.getChunk attr o).isEmpty

/-- Both iterators come to an end and show the window, they visit the same non-empty
chunks in the same order, and they give the same answers to `setPosition` there. -/
def ExactByEither (attr : A) : Prop :=
  ∃ plain mapped, Enumerates S.plainNext S.plainRestart plain ∧
    Enumerates S.mappedNext S.mappedRestart mapped ∧
    S.Shows attr plain ∧ S.Shows attr (mapped.map Cursor.position) ∧
    plain.filter (S.nonEmpty attr) = (mapped.map Cursor.position).filter (S.nonEmpty attr) ∧
    ∀ pos, S.nonEmpty attr (getChunkPositionFor S.dims pos) →
      S.plainSetPosition pos = S.mappedSetPosition pos

/-- A corner of the output chunk leads to the input chunk of the cell. -/
def Reached (x : Coordinates) : Prop :=
  ∃ k ∈ corners S.axes (S.out2in (S.outChunk x)),
    S.input.setPosition k = some (getChunkPositionFor (S.axes.map Axis.input) x)

/-- Every cell of the window is reached and its output chunk is in the chunk set. -/
def Covered : Prop :=
  ∀ x, (S.input.cell x).isSome → InWindow S.axes x → S.Reached x ∧ S.Listed (S.outChunk x)

variable {S}

/-! ## Positions of the window -/

theorem inWindow_out2in (h : InOutput S.axes p) : InWindow S.axes (S.out2in p) := by
  rw [out2in]
  generalize S.axes = axes at h ⊢
  induction h with
  | nil => exact .nil
  | @cons a y axes p hy _ ih =>
    exact .cons (show a.low ≤ y + a.low ∧ y + a.low ≤ a.high by omega) ih

theorem inOutput_in2out (h : InWindow S.axes x) : InOutput S.axes (S.in2out x) := by
  rw [in2out]
  generalize S.axes = axes at h ⊢
  induction h with
  | nil => exact .nil
  | @cons a y axes p hy _ ih =>
    exact .cons (show 0 ≤ y - a.low ∧ y - a.low ≤ a.high - a.low by omega) ih

theorem isChunkPosition_outChunk (h : InWindow S.axes x) : IsChunkPosition S.dims (S.outChunk x) :=
  isChunkPosition_of_inOutput (inOutput_in2out h)

theorem nonEmpty_iff : S.nonEmpty attr o = true ↔ ∃ p v, (p, v) ∈ S.getChunk attr o := by
  rw [nonEmpty]
  cases S.getChunk attr o with
  | nil => simp
  | cons e out => exact iff_of_true rfl ⟨e.1, e.2, mem_cons_self⟩

/-- Every output chunk the chunk set holds is one of the grid. -/
theorem isChunkPosition_of_listed (h : S.Listed o) : IsChunkPosition S.dims o := by
  rcases h with ⟨c, hc, h⟩
  clear hc
  rw [dims]
  generalize S.axes = axes at h ⊢
  induction h with
  | nil => exact .nil
  | @cons a x y axes xs ys hxy _ ih =>
    refine .cons ?_ ih
    have hdvd := dvd_getChunkPosition a.output (x - a.low)
    have hge : a.output.startMin ≤ getChunkPosition a.output (x - a.low) :=
      startMin_le_getChunkPosition.mpr (show (0 : Int) ≤ _ by have := hxy.1; omega)
    have hpos := a.output.interval_pos
    rcases hxy with ⟨_, hle, rfl | ⟨_, rfl, hle'⟩⟩
    · exact ⟨hge, hle, hdvd⟩
    · refine ⟨by omega, hle', ?_⟩
      rw [show getChunkPosition a.output (x - a.low) + a.output.chunkInterval -
        a.output.startMin = getChunkPosition a.output (x - a.low) - a.output.startMin +
          a.output.chunkInterval by ring]
      exact dvd_add hdvd dvd_rfl

theorem mem_setPositions : o ∈ S.setPositions ↔ S.Listed o := by
  rw [← mem_chunkSet, ← OrdMap.mem_entries, setPositions, mem_map]
  constructor
  · rintro ⟨⟨o, _⟩, h, rfl⟩
    exact h
  · intro h
    exact ⟨_, h, rfl⟩

theorem setPositions_pairwise : S.setPositions.Pairwise (· < ·) := by
  rw [setPositions, pairwise_map]
  exact S.chunkSet.sorted

/-! ## Which chunks are reached -/

/-- Along one axis, the near corner of the output chunk of a position of the window. -/
def near (a : Axis) (x : Int) : Int :=
  getChunkPosition a.output (x - a.low) + a.low

/-- The far corner is only needed for an input chunk that starts behind the near one, and
then it has to be within the limit. -/
def FarWithin (limit : Axis → Int) (a : Axis) (x : Int) : Prop :=
  getChunkPosition a.input x ≤ near a x ∨ near a x + (a.input.chunkInterval - 1) ≤ limit a

theorem out2in_outChunk : S.out2in (S.outChunk x) = List.zipWith near S.axes x := by
  rw [out2in, outChunk, in2out, dims]
  generalize S.axes = axes
  induction axes generalizing x with
  | nil => rfl
  | cons a axes ih =>
    cases x with
    | nil => rfl
    | cons y x => exact congrArg (near a y :: ·) ih

theorem near_range {x : Int} (hx : a.low ≤ x ∧ x ≤ a.high) :
    a.low ≤ near a x ∧ near a x ≤ x ∧ x < near a x + a.input.chunkInterval := by
  have ho : a.output.startMin ≤ getChunkPosition a.output (x - a.low) :=
    startMin_le_getChunkPosition.mpr (show (0 : Int) ≤ x - a.low by omega)
  have hrange := (getChunkPosition_eq_iff (dvd_getChunkPosition a.output (x - a.low))).mp rfl
  have hzero : a.output.startMin = 0 := rfl
  have hsame : a.output.chunkInterval = a.input.chunkInterval := rfl
  rw [near]
  omega

theorem farEnd_eq (hmin : a.input.startMin ≤ y) (hmax : y + (a.input.chunkInterval - 1) < 2 ^ 63) :
    farEnd a y = y + (a.input.chunkInterval - 1) := by
  have hge := a.input.getMin_le
  have hpos := a.input.interval_pos
  apply Int.bmod_eq_of_le <;> norm_num <;> omega

/-- The far end is inside the dimension only if the addition did not wrap around. -/
theorem farEnd_le (hmin : a.input.startMin ≤ y) (hy : y ≤ a.input.endMax)
    (hge : a.input.startMin ≤ farEnd a y) (hle : farEnd a y ≤ a.input.endMax) :
    y + (a.input.chunkInterval - 1) ≤ a.input.endMax := by
  have hlow := a.input.getMin_le
  have hhigh := a.input.le_getMax
  have hlt := a.input.interval_lt
  rw [farEnd, Int.bmod_def] at hge hle
  omega

/-- The chunk of a position of the window holds the near or the far corner. -/
theorem exists_corner_axis {x : Int} (hlimit : limit a < 2 ^ 63) (hx : a.low ≤ x ∧ x ≤ a.high)
    (h : FarWithin limit a x) :
    ∃ y, (y = near a x ∨ y = farEnd a (near a x)) ∧
      (a.input.startMin ≤ y ∧ y ≤ max a.high (limit a)) ∧
      getChunkPosition a.input y = getChunkPosition a.input x := by
  have hmin := a.start_le
  have hnear := near_range hx
  have hdvd := dvd_getChunkPosition a.input x
  have hchunk := (getChunkPosition_eq_iff hdvd).mp rfl
  by_cases hle : getChunkPosition a.input x ≤ near a x
  · refine ⟨_, .inl rfl, ⟨by omega, by omega⟩, ?_⟩
    rw [getChunkPosition_eq_iff hdvd]
    omega
  · have hfar := h.resolve_left hle
    have heq := farEnd_eq (a := a) (y := near a x) (by omega) (by omega)
    refine ⟨_, .inr rfl, ⟨by omega, by omega⟩, ?_⟩
    rw [getChunkPosition_eq_iff hdvd]
    omega

theorem farWithin_of_corner {x : Int} (hx : a.low ≤ x ∧ x ≤ a.high)
    (hy : y = near a x ∨ y = farEnd a (near a x)) (hin : a.input.startMin ≤ y ∧ y ≤ a.input.endMax)
    (heq : getChunkPosition a.input y = getChunkPosition a.input x) :
    FarWithin (fun a => a.input.endMax) a x := by
  have hmin := a.start_le
  have hmax := a.le_end
  have hnear := near_range hx
  have hchunk := (getChunkPosition_eq_iff (dvd_getChunkPosition a.input y)).mp rfl
  rcases hy with rfl | rfl
  · left
    omega
  · right
    exact farEnd_le (by omega) (by omega) hin.1 hin.2

theorem mem_corners_cons :
    k ∈ corners (a :: axes) (y :: pos) ↔
      ∃ z k', (z = y ∨ z = farEnd a y) ∧ k' ∈ corners axes pos ∧ k = z :: k' := by
  simp only [corners, mem_append, mem_map]
  constructor
  · rintro (⟨k', hk', rfl⟩ | ⟨k', hk', rfl⟩)
    · exact ⟨y, k', .inl rfl, hk', rfl⟩
    · exact ⟨farEnd a y, k', .inr rfl, hk', rfl⟩
  · rintro ⟨z, k', rfl | rfl, hk', rfl⟩
    · exact .inl ⟨k', hk', rfl⟩
    · exact .inr ⟨k', hk', rfl⟩

/-- If the far corners that are needed are within the limit, some corner is in the chunk
of the position. -/
theorem exists_corner (hlimit : ∀ a, limit a < 2 ^ 63) (hx : InWindow axes x)
    (h : List.Forall₂ (FarWithin limit) axes x) :
    ∃ k ∈ corners axes (List.zipWith near axes x),
      List.Forall₂ (fun a y => a.input.startMin ≤ y ∧ y ≤ max a.high (limit a)) axes k ∧
      getChunkPositionFor (axes.map Axis.input) k =
        getChunkPositionFor (axes.map Axis.input) x := by
  induction hx with
  | nil => exact ⟨[], by simp [corners], .nil, rfl⟩
  | @cons a y axes x hy _ ih =>
    rcases forall₂_cons.mp h with ⟨hfar, hrest⟩
    rcases ih hrest with ⟨k, hk, hin, hround⟩
    rcases exists_corner_axis (hlimit a) hy hfar with ⟨z, hz, hzin, hzround⟩
    refine ⟨z :: k, mem_corners_cons.mpr ⟨z, k, hz, hk, rfl⟩, .cons hzin hin, ?_⟩
    exact congrArg₂ (· :: ·) hzround hround

theorem farWithin_of_mem_corners (hx : InWindow axes x)
    (hk : k ∈ corners axes (List.zipWith near axes x))
    (hin : contains (axes.map Axis.input) k = true)
    (hround : getChunkPositionFor (axes.map Axis.input) k =
      getChunkPositionFor (axes.map Axis.input) x) :
    List.Forall₂ (FarWithin fun a => a.input.endMax) axes x := by
  induction hx generalizing k with
  | nil => exact .nil
  | @cons a y axes x hy _ ih =>
    rcases mem_corners_cons.mp hk with ⟨z, k, hz, hk', rfl⟩
    rw [map_cons, contains, zip_cons_cons, all_cons, Bool.and_eq_true, decide_eq_true_iff] at hin
    rcases List.cons.inj hround with ⟨hzround, hround⟩
    exact .cons (farWithin_of_corner hy hz hin.1 hzround) (ih hk' hin.2 hround)

theorem mem_positions_of_cell {I : InputArray dims A V} (h : (I.cell x).isSome) :
    getChunkPositionFor dims x ∈ I.positions := by
  rcases Option.isSome_iff_exists.mp h with ⟨t, ht⟩
  have hmem := mem_of_lookup ht
  rw [InputArray.cellsAt] at hmem
  cases hl : I.chunks.lookup (getChunkPositionFor dims x) with
  | none => simp [hl] at hmem
  | some cells => exact mem_map_of_mem (mem_of_lookup hl)

/-- With an input that refuses positions outside of its bounds, the far corners that are
needed have to be inside. -/
theorem reached_iff_of_refuses (hrefuses : ∀ pos, S.input.outside pos = none)
    (hcell : (S.input.cell x).isSome) (hx : InWindow S.axes x) :
    S.Reached x ↔ List.Forall₂ (FarWithin fun a => a.input.endMax) S.axes x := by
  rw [Reached, out2in_outChunk]
  constructor
  · rintro ⟨k, hk, hset⟩
    rw [InputArray.setPosition, hrefuses] at hset
    split at hset
    · rename_i hin
      dsimp only at hset
      split at hset
      · exact farWithin_of_mem_corners hx hk hin (Option.some.inj hset)
      · cases hset
    · cases hset
  · intro h
    have hlimit : ∀ a : Axis, a.input.endMax < 2 ^ 63 := by
      intro a
      have := a.input.le_getMax
      omega
    rcases exists_corner hlimit hx h with ⟨k, hk, hin, hround⟩
    refine ⟨k, hk, ?_⟩
    have hin : contains (S.axes.map Axis.input) k = true := by
      apply contains_of_forall₂
      rw [forall₂_map_left_iff]
      refine hin.imp fun a y hy => ⟨hy.1, ?_⟩
      have := a.le_end
      omega
    rw [InputArray.setPosition, if_pos hin]
    simp [hround, mem_positions_of_cell hcell]

/-! ## Exactness -/

/-- A cell of the window whose input chunk is reached is in its output chunk. -/
theorem mem_getChunk_of_reached (attr : A) {t : A → V} (ht : S.input.cell x = some t)
    (hx : InWindow S.axes x) (hreached : S.Reached x) :
    (S.in2out x, t attr) ∈ S.getChunk attr (S.outChunk x) := by
  rcases hreached with ⟨k, hk, hc⟩
  refine mem_getChunk.mpr ⟨k, hk, _, hc, (x, t), mem_of_lookup ht, rfl, ?_, rfl⟩
  exact (inOutputChunk_iff (isChunkPosition_outChunk hx)).mpr ⟨inOutput_in2out hx, rfl⟩

/-- Conversely, a cell is in its output chunk only if its input chunk is reached. -/
theorem reached_of_mem_getChunk (hx : InWindow S.axes x)
    (h : (S.in2out x, v) ∈ S.getChunk attr (S.outChunk x)) : S.Reached x := by
  rcases mem_getChunk.mp h with ⟨k, hk, c, hc, ⟨y, t⟩, he, hy, _⟩
  have hcell := InputArray.mem_cellsAt he
  have hlen : y.length = S.axes.length := by simpa using hcell.1.length_eq.symm
  have hxy : x = y := by
    rw [← out2in_in2out hlen, hy, out2in_in2out hx.length_eq.symm]
  refine ⟨k, hk, ?_⟩
  rw [hc, hxy, hcell.2]

/-- If all cells of the window are reached, an iterator shows the window when it visits
some chunks of the grid and among them those that have cells. -/
theorem shows_of_visits {visited : List Coordinates} (hreached : ∀ x, (S.input.cell x).isSome →
      InWindow S.axes x → S.Reached x)
    (hsorted : visited.Pairwise (· < ·)) (hgrid : ∀ o ∈ visited, IsChunkPosition S.dims o)
    (hall : ∀ x, (S.input.cell x).isSome → InWindow S.axes x → S.outChunk x ∈ visited) :
    S.Shows attr visited := by
  refine ⟨hsorted, fun p v => ?_⟩
  simp only [lookup_getChunk]
  constructor
  · rintro ⟨o, ho, hp⟩
    rcases getChunk_sound hp with ⟨hin, _, hcell⟩
    exact ⟨((inOutputChunk_iff (hgrid o ho)).mp hin).1, hcell⟩
  · rintro ⟨hp, t, ht, rfl⟩
    have hsome : (S.input.cell (S.out2in p)).isSome := by rw [ht]; rfl
    have hx := inWindow_out2in hp
    have hmem := mem_getChunk_of_reached attr ht hx (hreached _ hsome hx)
    rw [in2out_out2in hp.length_eq.symm] at hmem
    exact ⟨_, hall _ hsome hx, hmem⟩

/-- Along with a non-empty chunk position, the one of a cell of the window. -/
theorem exists_cell_of_nonEmpty (ho : IsChunkPosition S.dims o) (h : S.nonEmpty attr o = true) :
    ∃ x, (S.input.cell x).isSome ∧ InWindow S.axes x ∧ S.outChunk x = o := by
  rcases nonEmpty_iff.mp h with ⟨p, v, hp⟩
  rcases getChunk_sound hp with ⟨hin, _, t, ht, _⟩
  rcases (inOutputChunk_iff ho).mp hin with ⟨hp, ho⟩
  refine ⟨S.out2in p, by rw [ht]; rfl, inWindow_out2in hp, ?_⟩
  rw [outChunk, in2out_out2in hp.length_eq.symm]
  exact ho

/-- A position inside the bounds is rounded to one of the grid. -/
theorem isChunkPosition_of_contains (h : contains dims pos = true)
    (hlen : (getChunkPositionFor dims pos).length = dims.length) :
    IsChunkPosition dims (getChunkPositionFor dims pos) := by
  induction dims generalizing pos with
  | nil => exact .nil
  | cons d dims ih =>
    cases pos with
    | nil => simp [getChunkPositionFor] at hlen
    | cons x pos =>
      rw [contains, zip_cons_cons, all_cons, Bool.and_eq_true, decide_eq_true_iff] at h
      refine .cons (isChunkStart_getChunkPosition h.1.1 h.1.2) (ih h.2 ?_)
      simpa [getChunkPositionFor] using hlen

theorem inOutputChunk_length (h : inOutputChunk axes o p = true) : o.length = axes.length := by
  fun_induction inOutputChunk axes o p with
  | case1 a axes o outPos x pos ih => simpa using ih (Bool.and_eq_true_iff.mp h).2
  | case2 => rfl
  | case3 => cases h

theorem setPosition_eq_of_listed
    (hlisted : ∀ o, IsChunkPosition S.dims o → S.nonEmpty attr o = true → S.Listed o)
    (h : S.nonEmpty attr (getChunkPositionFor S.dims pos) = true) :
    S.plainSetPosition pos = S.mappedSetPosition pos := by
  rw [plainSetPosition, mappedSetPosition]
  by_cases hin : contains S.dims pos = true
  · have hlen : (getChunkPositionFor S.dims pos).length = S.dims.length := by
      rcases nonEmpty_iff.mp h with ⟨p, v, hp⟩
      simpa [dims] using inOutputChunk_length (getChunk_sound hp).1
    have hget := mem_chunkSet.mpr (hlisted _ (isChunkPosition_of_contains hin hlen) h)
    simp [hget]
  · simp only [hin]
    rfl

theorem mem_plain : o ∈ (grid S.dims).filter S.probe ↔
    IsChunkPosition S.dims o ∧ S.probe o = true := by
  rw [mem_filter, mem_grid]

theorem mem_mapped : o ∈ S.setPositions.filter S.probe ↔ S.Listed o ∧ S.probe o = true := by
  rw [mem_filter, mem_setPositions]

theorem exact_of_covered (attr : A) (h : S.Covered) : S.ExactByEither attr := by
  have hreached : ∀ x, (S.input.cell x).isSome → InWindow S.axes x → S.Reached x :=
    fun x hcell hx => (h x hcell hx).1
  have hlisted : ∀ o, IsChunkPosition S.dims o → S.nonEmpty attr o = true → S.Listed o := by
    intro o ho hne
    rcases exists_cell_of_nonEmpty ho hne with ⟨x, hcell, hx, rfl⟩
    exact (h x hcell hx).2
  have hprobe : ∀ x, (S.input.cell x).isSome → InWindow S.axes x →
      S.probe (S.outChunk x) = true := by
    intro x hcell hx
    rcases Option.isSome_iff_exists.mp hcell with ⟨t, ht⟩
    exact (getChunk_sound (mem_getChunk_of_reached attr ht hx (hreached x hcell hx))).2.1
  rcases mapped_enumerates with ⟨mapped, hmapped, hpositions⟩
  have hplainSorted := (grid_pairwise S.dims).filter S.probe
  have hmappedSorted := S.setPositions_pairwise.filter S.probe
  refine ⟨_, mapped, plain_enumerates, hmapped, ?_, ?_, ?_, ?_⟩
  · apply shows_of_visits hreached hplainSorted (fun o ho => (mem_plain.mp ho).1)
    intro x hcell hx
    exact mem_plain.mpr ⟨isChunkPosition_outChunk hx, hprobe x hcell hx⟩
  · rw [hpositions]
    apply shows_of_visits hreached hmappedSorted
      (fun o ho => isChunkPosition_of_listed (mem_mapped.mp ho).1)
    intro x hcell hx
    exact mem_mapped.mpr ⟨(h x hcell hx).2, hprobe x hcell hx⟩
  · rw [hpositions]
    apply List.Pairwise.eq_of_mem_iff (hplainSorted.filter _) (hmappedSorted.filter _)
    intro o
    constructor
    · intro ho
      rcases mem_filter.mp ho with ⟨ho, hne⟩
      rcases mem_plain.mp ho with ⟨ho, hp⟩
      exact mem_filter.mpr ⟨mem_mapped.mpr ⟨hlisted o ho hne, hp⟩, hne⟩
    · intro ho
      rcases mem_filter.mp ho with ⟨ho, hne⟩
      rcases mem_mapped.mp ho with ⟨ho, hp⟩
      exact mem_filter.mpr ⟨mem_plain.mpr ⟨isChunkPosition_of_listed ho, hp⟩, hne⟩
  · intro pos hne
    exact setPosition_eq_of_listed hlisted hne

theorem covered_of_exact (h : S.ExactByEither attr) : S.Covered := by
  rcases h with ⟨plain, mapped, hplain, hmapped, hshows, _, hsame, _⟩
  rcases mapped_enumerates with ⟨mapped', hmapped', hpositions⟩
  cases hplain.unique plain_enumerates
  cases hmapped.unique hmapped'
  intro x hcell hx
  rcases Option.isSome_iff_exists.mp hcell with ⟨t, ht⟩
  -- the plain iterator shows the cell, so its input chunk is reached
  have hshown : ∃ o ∈ (grid S.dims).filter S.probe,
      (S.getChunk attr o).lookup (S.in2out x) = some (t attr) := by
    refine (hshows.2 _ _).mpr ⟨inOutput_in2out hx, t, ?_, rfl⟩
    rw [out2in_in2out hx.length_eq.symm, ht]
  rcases hshown with ⟨o, ho, hlookup⟩
  have hmem := lookup_getChunk.mp hlookup
  have hgrid := (mem_plain.mp ho).1
  have ho' : S.outChunk x = o := ((inOutputChunk_iff hgrid).mp (getChunk_sound hmem).1).2
  subst ho'
  refine ⟨reached_of_mem_getChunk hx hmem, ?_⟩
  -- and so does the mapped one
  have hne : S.nonEmpty attr (S.outChunk x) = true := nonEmpty_iff.mpr ⟨_, _, hmem⟩
  have hin := mem_filter.mpr ⟨ho, hne⟩
  rw [hsame, hpositions] at hin
  exact (mem_mapped.mp (mem_filter.mp hin).1).1

/-- The output shows exactly the cells of the window, with either iterator, if and only
if the input chunk of every cell of the window is reached from a corner of the output
chunk and the output chunk is in the chunk set. -/
theorem exactByEither_iff (S : SubArray A V) (attr : A) : S.ExactByEither attr ↔ S.Covered :=
  ⟨covered_of_exact, exact_of_covered attr⟩

/-- An array of one dimension with a single cell, which refuses positions outside of its
bounds. -/
def singleCell (d : DimensionDesc) (x : Int) (hmin : d.startMin ≤ x) (hmax : x ≤ d.endMax) :
    InputArray [d] Unit Nat where
  chunks := [([getChunkPosition d x], [([x], fun _ => 1)])]
  outside _ := none
  isChunkPosition := by
    intro c hc
    cases mem_singleton.mp hc
    exact .cons (isChunkStart_getChunkPosition hmin hmax) .nil
  nodup := nodup_singleton _
  cells_in := by
    intro c hc e he
    cases mem_singleton.mp hc
    cases mem_singleton.mp he
    exact ⟨.cons ⟨hmin, hmax⟩ .nil, rfl⟩
  cells_nodup := by
    intro c hc
    cases mem_singleton.mp hc
    exact nodup_singleton _
  outside_mem := by
    intro pos c h
    cases h

/-- A window of seven thousand chunks that starts in the middle of the only input chunk. -/
def wideWindow : SubArray Unit Nat where
  axes := [⟨.ofBounds 0 99999 10 (by decide), 5, 70004, by decide, by decide, by decide, by decide⟩]
  input := singleCell _ 5 (by decide) (by decide)
  axes_ne_nil := by simp

/-- The last four of eight cells, of which the chunks hold five and three.  The input is
the output of another subarray, so it refuses the far corner, which is at eight. -/
def lastCells : SubArray Unit Nat where
  axes := [⟨.ofBounds 0 7 5 (by decide), 4, 7, by decide, by decide, by decide, by decide⟩]
  input := singleCell _ 7 (by decide) (by decide)
  axes_ne_nil := by simp

/-- The mapped iterator, which is made for so large a window, loses the cell at the start of
the first one, and either iterator loses the last cell of the second one. -/
theorem subarray_loses_cells :
    (wideWindow.useChunkSet = true ∧ ¬ wideWindow.ExactByEither ()) ∧
      ¬ lastCells.ExactByEither () := by
  refine ⟨⟨by decide, fun h => ?_⟩, fun h => ?_⟩
  · have hlisted := (covered_of_exact h [5] (by decide) (.cons (by decide) .nil)).2
    exact absurd (mem_chunkSet.mpr hlisted) (by decide)
  · have hcell : (lastCells.input.cell [7]).isSome := by decide
    have hx : InWindow lastCells.axes [7] := .cons (by decide) .nil
    have hreached := (covered_of_exact h [7] hcell hx).1
    rw [reached_iff_of_refuses (fun _ => rfl) hcell hx] at hreached
    exact absurd (forall₂_cons.mp hreached).1 (by unfold FarWithin; decide)

end SciDB.Operators.SubArray
