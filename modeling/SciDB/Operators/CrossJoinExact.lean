import SciDB.Operators.CrossJoin

/-!
# What a cross join holds

The iterators of `CrossJoin` serve the pairs of chunks and of cells that match, in
row-major order, and together they hold the relational join of the two arrays.

Main results:

- Theorem {lit}`arrayIterator_serves`: the array iterator serves the pairs of chunks.
- Theorem {lit}`chunkIterator_serves`: the chunk iterator serves the pairs of cells.
- Theorem {lit}`cross_join_exact`: together they hold the relational join.
-/

namespace SciDB.Operators.CrossJoin

open SciDB.Distribution Bisect Joins OrderedMap Seekable List OrdMap
open ChunkIterator (findValueInBucket compareAt enterBucket probe)
open Attributes (emptyBitmap)
open ArrayIterator (advance current getChunk inputs position restartFrom setPosition start)
open ChunkIterator (joinKey start)
open ChunkedArray (cell)

/-! ## The pairs of chunks -/

section Chunks

variable {V : Type} {leftDims rightDims : List Dimension}
  {P : Pairing leftDims.length rightDims.length}
  {left : ChunkedArray leftDims V} {right : ChunkedArray rightDims V}
  {ls rs : List (Coordinates × Chunk V)} {s : ArrayIterator V} {pos : Coordinates}

variable (P)

/-- The right chunks that match a left one. -/
def partners (right : ChunkedArray rightDims V) (l : Coordinates × Chunk V) :
    List (Coordinates × Chunk V) :=
  right.chunks.entries.filter fun r => matchPosition l.1 P.rjd r.1

/-- The output chunk of a pair. -/
def pairOf (e : (Coordinates × Chunk V) × (Coordinates × Chunk V)) :
    Coordinates × CrossJoinChunk V :=
  (getPosition P.rjd e.1.1 e.2.1, { leftChunk := e.1, rightChunk := e.2 })

/-- All output chunks. -/
def chunkPairs (left : ChunkedArray leftDims V) (right : ChunkedArray rightDims V) :
    List (Coordinates × CrossJoinChunk V) :=
  (joined left.chunks.entries (partners P right)).map (pairOf P)

/-- The pairs that the loops still find. -/
def behind (right : ChunkedArray rightDims V) :
    List (Coordinates × Chunk V) → List (Coordinates × Chunk V) →
      List ((Coordinates × Chunk V) × (Coordinates × Chunk V))
  | [], _ => []
  | l :: ls, rs =>
    remaining (partners P right) (l :: ls) (rs.filter fun r => matchPosition l.1 P.rjd r.1)

variable {P}

theorem behind_entries : behind P right ls right.chunks.entries = joined ls (partners P right) := by
  cases ls with
  | nil => rfl
  | cons l ls => rw [joined_cons]; rfl

variable {l r : Coordinates × Chunk V} {dims : List Dimension} {pos : Coordinates}

theorem behind_cons (h : matchPosition l.1 P.rjd r.1) :
    behind P right (l :: ls) (r :: rs) = (l, r) :: behind P right (l :: ls) rs := by
  have hfilter : ((r :: rs).filter fun r => matchPosition l.1 P.rjd r.1) =
      r :: rs.filter fun r => matchPosition l.1 P.rjd r.1 := filter_cons_of_pos h
  rw [behind, hfilter]
  rfl

variable (P)

/-- The input iterators are at two chunks that match, and `chunk` is about them. -/
def Placed (left : ChunkedArray leftDims V) (right : ChunkedArray rightDims V)
    (s : ArrayIterator V) : Prop :=
  s.hasCurrent = true → ∃ l ls r rs, s.leftIterator = l :: ls ∧ s.rightIterator = r :: rs ∧
    (l :: ls) <:+ left.chunks.entries ∧ (r :: rs) <:+ right.chunks.entries ∧
    matchPosition l.1 P.rjd r.1 ∧ ∀ c, s.chunk = some c → c = { leftChunk := l, rightChunk := r }

/-- The output chunks that are left. -/
def chunksLeft (right : ChunkedArray rightDims V) (s : ArrayIterator V) :
    List (Coordinates × CrossJoinChunk V) :=
  if s.hasCurrent then (behind P right s.leftIterator s.rightIterator).map (pairOf P) else []

variable {P}

theorem chunksLeft_of_not (h : s.hasCurrent = false) : chunksLeft P right s = [] := by
  rw [chunksLeft, h]
  rfl

theorem placed_of_not (h : s.hasCurrent = false) : Placed P left right s := by
  intro htrue
  rw [h] at htrue
  cases htrue

/-- A state that a search has found. -/
theorem placed_found (hls : (l :: ls) <:+ left.chunks.entries)
    (hrs : (r :: rs) <:+ right.chunks.entries) (hmatch : matchPosition l.1 P.rjd r.1) :
    Placed P left right { leftIterator := l :: ls, rightIterator := r :: rs, hasCurrent := true,
                          chunk := none } := by
  intro _
  refine ⟨l, ls, r, rs, rfl, rfl, hls, hrs, hmatch, ?_⟩
  intro c hc
  cases hc

theorem advance_spec (hls : ls <:+ left.chunks.entries) (hrs : rs <:+ right.chunks.entries) :
    Placed P left right (advance P right ls rs) ∧
      chunksLeft P right (advance P right ls rs) = (behind P right ls rs).map (pairOf P) := by
  induction ls generalizing rs with
  | nil => exact ⟨placed_of_not rfl, rfl⟩
  | cons l ls ih =>
    rw [advance]
    split
    · rename_i hnil
      have ih := ih ((suffix_cons l ls).trans hls) suffix_rfl
      refine ⟨ih.1, ?_⟩
      rw [ih.2, behind_entries, behind, filter_eq_nil_of_dropWhile hnil]
      rfl
    · rename_i r rs' hcons
      rcases filter_of_dropWhile hcons with ⟨hmatch, hsuf, hfilter⟩
      refine ⟨placed_found hls (hsuf.trans hrs) hmatch, ?_⟩
      rw [chunksLeft, behind_cons hmatch, behind, behind, hfilter]
      rfl

theorem restartFrom_spec (hls : ls <:+ left.chunks.entries) :
    Placed P left right (restartFrom P right ls rs) ∧
      chunksLeft P right (restartFrom P right ls rs) =
        (joined ls (partners P right)).map (pairOf P) := by
  induction ls generalizing rs with
  | nil => exact ⟨placed_of_not rfl, rfl⟩
  | cons l ls ih =>
    rw [restartFrom]
    split
    · rename_i hnil
      have ih := @ih [] ((suffix_cons l ls).trans hls)
      refine ⟨ih.1, ?_⟩
      have hpartners : partners P right l = [] := filter_eq_nil_of_dropWhile hnil
      rw [ih.2, joined_cons_of_nil hpartners]
    · rename_i r rs' hcons
      rcases filter_of_dropWhile hcons with ⟨hmatch, hsuf, hfilter⟩
      refine ⟨placed_found hls hsuf hmatch, ?_⟩
      rw [chunksLeft, behind_cons hmatch, ← behind_entries, behind, behind, hfilter]
      rfl

theorem inputs_eq (hl : s.leftIterator = l :: ls) (hr : s.rightIterator = r :: rs) :
    s.inputs = some { leftChunk := l, rightChunk := r } := by
  rw [inputs, hl]
  rw [hr]

/-- `getChunk` answers with the chunks that the input iterators are at. -/
theorem getChunk_eq (hs : s.hasCurrent = true) (hl : s.leftIterator = l :: ls)
    (hr : s.rightIterator = r :: rs)
    (hchunk : ∀ c, s.chunk = some c → c = { leftChunk := l, rightChunk := r }) :
    s.getChunk = .ok ({ leftChunk := l, rightChunk := r },
      { s with chunk := some { leftChunk := l, rightChunk := r } }) := by
  rw [getChunk, if_pos hs]
  cases hc : s.chunk with
  | none =>
    rw [inputs_eq hl hr]
  | some c =>
    have hs' : { s with chunk := some c } = s := by rw [← hc]
    rw [← hchunk c hc, hs']

theorem getChunk_of_not (h : s.hasCurrent = false) : s.getChunk = .error .noCurrentElement := by
  rw [getChunk, h]
  rfl

theorem current_of_not (h : s.hasCurrent = false) : s.current P = none := by
  rw [current, getChunk_of_not h]

theorem Placed.read (h : Placed P left right s) : Placed P left right s.read := by
  cases hs : s.hasCurrent with
  | false =>
    rw [ArrayIterator.read, getChunk_of_not hs]
    exact h
  | true =>
    rcases h hs with ⟨l, ls, r, rs, hl, hr, hls, hrs, hmatch, hchunk⟩
    rw [ArrayIterator.read, getChunk_eq hs hl hr hchunk]
    intro _
    refine ⟨l, ls, r, rs, hl, hr, hls, hrs, hmatch, ?_⟩
    intro c hc
    exact (Option.some.inj hc).symm

/-- One step of the array iterator. -/
theorem Placed.step (h : Placed P left right s) {x : Coordinates × CrossJoinChunk V}
    {rest : List (Coordinates × CrossJoinChunk V)} (hrest : chunksLeft P right s = x :: rest) :
    s.current P = some x ∧ ∃ s', s.next P right = .ok s' ∧ Placed P left right s' ∧
      chunksLeft P right s' = rest := by
  cases hs : s.hasCurrent with
  | false =>
    rw [chunksLeft_of_not hs] at hrest
    cases hrest
  | true =>
    rcases h hs with ⟨l, ls, r, rs, hl, hr, hls, hrs, hmatch, hchunk⟩
    have hadvance := advance_spec (P := P) hls ((suffix_cons r rs).trans hrs)
    rw [chunksLeft, if_pos hs, hl, hr, behind_cons hmatch] at hrest
    cases hrest
    constructor
    · rw [current, getChunk_eq hs hl hr hchunk]
      rw [position, inputs_eq hl hr]
      rfl
    · refine ⟨_, ?_, hadvance.1, hadvance.2⟩
      rw [ArrayIterator.next, if_pos hs, hl, hr]
      rfl

/-- At the end nothing is left. -/
theorem Placed.finished (h : Placed P left right s) (hrest : chunksLeft P right s = []) :
    s.hasCurrent = false := by
  cases hs : s.hasCurrent with
  | false => rfl
  | true =>
    rcases h hs with ⟨l, ls, r, rs, hl, hr, -, -, hmatch, -⟩
    rw [chunksLeft, if_pos hs, hl, hr, behind_cons hmatch] at hrest
    cases hrest

/-! ### Positions -/

variable (P)

/-- A position with a coordinate for each dimension of the output. -/
def Valid (pos : Coordinates) : Prop :=
  pos.length = leftDims.length + P.rjd.count none

/-- A position in the bounds of the output, where a joined dimension ends with the shorter
one of the pair. -/
def Inside (pos : Coordinates) : Prop :=
  contains (descs leftDims) (getLeftPosition P.ljd pos) ∧
    contains (descs rightDims) (getRightPosition P.ljd P.rjd pos)

/-- The chunk of the output that a position is in. -/
def chunkOf (pos : Coordinates) : Coordinates :=
  getChunkPositionFor (descs leftDims ++ unjoined P.rjd (descs rightDims)) pos

variable {P} {A : ChunkedArray dims V}

theorem length_getChunkPositionFor (h : pos.length = dims.length) :
    (getChunkPositionFor (descs dims) pos).length = dims.length := by
  rw [getChunkPositionFor, descs, length_zipWith, length_map, h, Nat.min_self]

theorem length_of_chunk {c : Coordinates × Chunk V}
    (h : c ∈ A.chunks.entries) : c.1.length = dims.length := by
  have := (A.isChunkPosition c h).length_eq
  rw [descs, length_map] at this
  exact this.symm

theorem getElem?_getChunkPositionFor {i : Nat} {d : Dimension} {x : Int} (hd : dims[i]? = some d)
    (hx : pos[i]? = some x) :
    (getChunkPositionFor (descs dims) pos)[i]? = some (getChunkPosition d.toDimensionDesc x) := by
  rw [getChunkPositionFor, getElem?_zipWith, descs, getElem?_map, hd, hx]
  rfl

/-- Chunks of positions that match also match. -/
theorem matchPosition_chunks (hP : Conformant P) {l r : Coordinates}
    (hl : l.length = leftDims.length) (hr : r.length = rightDims.length)
    (h : matchPosition l P.rjd r) :
    matchPosition (getChunkPositionFor (descs leftDims) l) P.rjd
      (getChunkPositionFor (descs rightDims) r) := by
  rw [matchPosition_iff_getElem? (hr.trans P.length_rjd.symm)] at h
  rw [matchPosition_iff_getElem? ((length_getChunkPositionFor hr).trans P.length_rjd.symm)]
  intro j i hij
  have hmem := P.getElem?_rjd.mp hij
  have hi : leftDims[i]? = some _ := getElem?_eq_getElem (P.left_lt _ hmem)
  have hj : rightDims[j]? = some _ := getElem?_eq_getElem (P.right_lt _ hmem)
  have hx : l[i]? = some (l.getD i 0) := by
    rw [getElem?_eq_getElem (by rw [hl]; exact P.left_lt _ hmem),
      getD_eq_getElem _ _ (by rw [hl]; exact P.left_lt _ hmem)]
  rcases hP _ hmem _ _ hi hj with ⟨hstart, hinterval, -⟩
  rw [getElem?_getChunkPositionFor hj (h j i hij),
    getD_eq_getElem?_getD (l := getChunkPositionFor (descs leftDims) l),
    getElem?_getChunkPositionFor hi hx, Option.getD_some, getChunkPosition, getChunkPosition,
    hstart, hinterval]

variable (P)

theorem length_getRightPosition (pos : Coordinates) :
    (getRightPosition P.ljd P.rjd pos).length = rightDims.length :=
  (length_rightPosition _ _ _).trans P.length_rjd

theorem getLeftPosition_eq (pos : Coordinates) :
    getLeftPosition P.ljd pos = pos.take leftDims.length := by
  rw [getLeftPosition, P.length_ljd]

theorem matchPosition_parts (pos : Coordinates) :
    matchPosition (getLeftPosition P.ljd pos) P.rjd (getRightPosition P.ljd P.rjd pos) := by
  rw [getLeftPosition_eq, P.matchPosition_take (length_getRightPosition P pos)]
  exact matchPosition_rightPosition _ _ _

variable {P}

theorem length_getLeftPosition (h : Valid P pos) :
    (getLeftPosition P.ljd pos).length = leftDims.length := by
  rw [getLeftPosition_eq, length_take, h]
  omega

theorem unjoined_getRightPosition (h : Valid P pos) :
    unjoined P.rjd (getRightPosition P.ljd P.rjd pos) = pos.drop leftDims.length := by
  rw [getRightPosition, P.length_ljd]
  apply unjoined_rightPosition
  rw [length_drop, h, Nat.add_sub_cancel_left]

/-- A position consists of a left and a right one. -/
theorem getPosition_parts (h : Valid P pos) :
    getPosition P.rjd (getLeftPosition P.ljd pos) (getRightPosition P.ljd P.rjd pos) = pos := by
  rw [getPosition, unjoined_getRightPosition h, getLeftPosition_eq, take_append_drop]

/-- The chunk of a pair of positions is that of the pair of their chunks. -/
theorem chunkOf_getPosition {l r : Coordinates} (hl : l.length = leftDims.length)
    (hr : r.length = rightDims.length) :
    chunkOf P (getPosition P.rjd l r) =
      getPosition P.rjd (getChunkPositionFor (descs leftDims) l)
        (getChunkPositionFor (descs rightDims) r) := by
  have hdims : (descs rightDims).length = P.rjd.length := by
    rw [descs, length_map, P.length_rjd]
  rw [chunkOf, getPosition, getChunkPositionFor, zipWith_append (by rw [descs, length_map, hl]),
    ← unjoined_zipWith _ _ hdims (hr.trans P.length_rjd.symm)]
  rfl

/-! ### The array iterator -/

theorem chunkPairs_sorted : Sorted (chunkPairs P left right) := by
  rw [chunkPairs, Sorted, pairwise_map]
  apply pairwise_joined
  · refine left.chunks.sorted.imp_of_mem ?_
    intro l l' hl hl' hlt r _ r' _
    exact append_lt_append ((length_of_chunk hl).trans (length_of_chunk hl').symm) hlt
  · intro l _
    refine (right.chunks.sorted.sublist filter_sublist).imp_of_mem ?_
    intro r r' hr hr' hlt
    rw [mem_filter] at hr hr'
    exact P.getPosition_lt (length_of_chunk hr.1) (length_of_chunk hr'.1) hr.2 hr'.2 hlt

theorem mem_chunkPairs {e : Coordinates × CrossJoinChunk V} :
    e ∈ chunkPairs P left right ↔
      e.2.leftChunk ∈ left.chunks.entries ∧ e.2.rightChunk ∈ right.chunks.entries ∧
        matchPosition e.2.leftChunk.1 P.rjd e.2.rightChunk.1 ∧
        e.1 = getPosition P.rjd e.2.leftChunk.1 e.2.rightChunk.1 := by
  rw [chunkPairs, mem_map]
  constructor
  · rintro ⟨x, hx, rfl⟩
    rcases mem_joined.mp hx with ⟨hl, hr⟩
    rcases mem_filter.mp hr with ⟨hr, hmatch⟩
    exact ⟨hl, hr, hmatch, rfl⟩
  · rintro ⟨hl, hr, hmatch, heq⟩
    refine ⟨(e.2.leftChunk, e.2.rightChunk), mem_joined.mpr ⟨hl, mem_filter.mpr ⟨hr, hmatch⟩⟩, ?_⟩
    rw [pairOf, ← heq]

theorem chunksLeft_suffix (h : Placed P left right s) :
    chunksLeft P right s <:+ chunkPairs P left right := by
  cases hs : s.hasCurrent with
  | false =>
    rw [chunksLeft_of_not hs]
    exact nil_suffix
  | true =>
    rcases h hs with ⟨l, ls, r, rs, hl, hr, ⟨front, hls⟩, ⟨seen, hrs⟩, -, -⟩
    have hpartners : partners P right l = (seen.filter fun r => matchPosition l.1 P.rjd r.1) ++
        (r :: rs).filter fun r => matchPosition l.1 P.rjd r.1 := by
      rw [partners, ← hrs, filter_append]
    rw [chunksLeft, if_pos hs, hl, hr, chunkPairs, ← hls, joined_split hpartners, map_append]
    exact suffix_append _ _

/-- The chunk that `setPosition` of an input selects. -/
theorem get_of_setPosition (h : A.setPosition pos = true) :
    ∃ c, A.chunks.get (getChunkPositionFor (descs dims) pos) = some c := by
  rw [ChunkedArray.setPosition, Bool.and_eq_true] at h
  exact Option.isSome_iff_exists.mp h.2

theorem seek_eq_cons {m : OrdMap Coordinates (Chunk V)} {k : Coordinates} {c : Chunk V}
    (h : m.get k = some c) : ∃ rest, m.seek k = (k, c) :: rest ∧ (k, c) :: rest <:+ m.entries := by
  have hseek := seek_of_get h
  refine ⟨_, hseek, ?_⟩
  rw [← hseek]
  exact seek_suffix k

/-- An output chunk comes from a chunk of each input. -/
theorem setPosition_inputs (hP : Conformant P) (hvalid : Valid P pos) (hinside : Inside P pos)
    (hmem : chunkOf P pos ∈ (chunkPairs P left right).map Prod.fst) :
    left.setPosition (getLeftPosition P.ljd pos) = true ∧
      right.setPosition (getRightPosition P.ljd P.rjd pos) = true := by
  rcases mem_map.mp hmem with ⟨e, he, heq⟩
  rcases mem_chunkPairs.mp he with ⟨hl, hr, hmatch, hpos⟩
  have hleft := length_getLeftPosition hvalid
  have hright := length_getRightPosition P pos
  have hchunks := chunkOf_getPosition (P := P) hleft hright
  rw [getPosition_parts hvalid, ← heq, hpos] at hchunks
  rcases P.eq_of_getPosition ((length_of_chunk hl).trans (length_getChunkPositionFor hleft).symm)
    (length_of_chunk hr) (length_getChunkPositionFor hright) hmatch
    (matchPosition_chunks hP hleft hright (matchPosition_parts P pos)) hchunks with ⟨hlpos, hrpos⟩
  constructor
  · rw [ChunkedArray.setPosition, hinside.1, ← hlpos, mem_entries.mp hl]
    rfl
  · rw [ChunkedArray.setPosition, hinside.2, ← hrpos, mem_entries.mp hr]
    rfl

/-- `setPosition` succeeds if both inputs have the chunk, and is then at this pair. -/
theorem setPosition_cases (hP : Conformant P) :
    (∃ s', setPosition P left right pos s = (false, s') ∧ s'.hasCurrent = false ∧
        (Valid P pos → Inside P pos → chunkOf P pos ∉ (chunkPairs P left right).map Prod.fst)) ∨
      ∃ s', setPosition P left right pos s = (true, s') ∧ Placed P left right s' ∧
        (Valid P pos → ∃ x rest, chunksLeft P right s' = (chunkOf P pos, x) :: rest) := by
  rw [setPosition]
  by_cases hleft : left.setPosition (getLeftPosition P.ljd pos)
  · rw [if_pos hleft]
    by_cases hright : right.setPosition (getRightPosition P.ljd P.rjd pos)
    · rcases get_of_setPosition hleft with ⟨lc, hlc⟩
      rcases get_of_setPosition hright with ⟨rc, hrc⟩
      rcases seek_eq_cons hlc with ⟨ls, hls, hlsuf⟩
      rcases seek_eq_cons hrc with ⟨rs, hrs, hrsuf⟩
      have hlen : (getLeftPosition P.ljd pos).length = leftDims.length := by
        have := length_of_chunk (mem_entries.mpr hlc)
        rw [getChunkPositionFor, length_zipWith, getLeftPosition_eq, length_take] at this
        rw [getLeftPosition_eq, length_take]
        omega
      have hmatch := matchPosition_chunks hP hlen (length_getRightPosition P pos)
        (matchPosition_parts P pos)
      rw [if_pos hright, hls, hrs]
      refine .inr ⟨_, rfl, placed_found hlsuf hrsuf hmatch, ?_⟩
      intro hvalid
      have hchunks := chunkOf_getPosition (P := P) hlen (length_getRightPosition P pos)
      rw [getPosition_parts hvalid] at hchunks
      rw [chunksLeft, behind_cons hmatch, hchunks]
      exact ⟨_, _, rfl⟩
    · rw [if_neg hright]
      exact .inl ⟨_, rfl, rfl, fun hvalid hinside hmem =>
        hright (setPosition_inputs hP hvalid hinside hmem).2⟩
  · rw [if_neg hleft]
    exact .inl ⟨_, rfl, rfl, fun hvalid hinside hmem =>
      hleft (setPosition_inputs hP hvalid hinside hmem).1⟩

/-- The array iterator serves the pairs of chunks that match. -/
theorem arrayIterator_serves (hP : Conformant P) :
    Serves (arrayIterator P left right) (start P left right) (chunkPairs P left right)
      (Valid P) (Inside P) (chunkOf P) := by
  have hstart : ∀ rs, Placed P left right (.restartFrom P right left.chunks.entries rs) ∧
      chunksLeft P right (.restartFrom P right left.chunks.entries rs) = chunkPairs P left right :=
    fun rs => restartFrom_spec suffix_rfl
  refine serves_of_rest (Placed P left right) (chunksLeft P right) chunkPairs_sorted (hstart _)
    (fun s => chunksLeft_suffix) (fun s => Placed.read) ?_ (fun s x l hs hl => hs.step hl)
    (fun s _ => hstart _) ?_
  · intro s hs hrest
    have hnot := hs.finished hrest
    refine ⟨current_of_not hnot, ?_⟩
    intro s' hs'
    have hnext : ArrayIterator.next P right s = .ok s := by rw [ArrayIterator.next, hnot]; rfl
    cases hnext.symm.trans hs'
    exact hs
  · intro s pos _
    rcases setPosition_cases hP with ⟨s', hs', hnot, hmem⟩ | hfound
    · exact .inl ⟨s', hs', placed_of_not hnot, chunksLeft_of_not hnot, hmem⟩
    · exact .inr hfound

end Chunks

/-! ## The pairs of cells -/

section Cells

variable {V : Type} {leftDims rightDims : List Dimension}
  {P : Pairing leftDims.length rightDims.length} {item : V → V → V}
  {leftCells rightCells ls : List (Coordinates × V)} {s : ChunkIterator V} {pos : Coordinates}

variable (P)

/-- The table of two lists of cells. -/
def table (item : V → V → V) (leftCells rightCells : List (Coordinates × V)) : Table V where
  leftCells := leftCells
  rightHash :=
    build (fun e => (decomposeRightCoordinates P.rjd e.1).1)
      (fun e => ((decomposeRightCoordinates P.rjd e.1).2, e.2)) rightCells
  item := item

/-- The right cells that match a left one, without the joined coordinates. -/
def partnerCells (rightCells : List (Coordinates × V)) (l : Coordinates × V) :
    List (Coordinates × V) :=
  (rightCells.filter fun r => matchPosition l.1 P.rjd r.1).map fun r => (unjoined P.rjd r.1, r.2)

/-- The output cell of a left cell and an entry of its bucket. -/
def cellOf (item : V → V → V) (e : (Coordinates × V) × (Coordinates × V)) : Coordinates × V :=
  (composeOutCoordinates e.1.1 e.2.1, item e.1.2 e.2.2)

/-- All output cells. -/
def cellPairs (item : V → V → V) (leftCells rightCells : List (Coordinates × V)) :
    List (Coordinates × V) :=
  (joined leftCells (partnerCells P rightCells)).map (cellOf item)

variable {P}

/-- The hash table has the cells that match in the bucket of their key. -/
theorem find_rightHash (hright : ∀ r ∈ rightCells, r.1.length = rightDims.length)
    (l : Coordinates × V) :
    find (P.leftKey l.1) (table P item leftCells rightCells).rightHash =
      bucketOf (partnerCells P rightCells l) := by
  have hfilter : (rightCells.filter fun e =>
      decide ((decomposeRightCoordinates P.rjd e.1).1 = P.leftKey l.1)) =
      rightCells.filter fun r => matchPosition l.1 P.rjd r.1 := by
    apply filter_congr
    intro r hr
    rw [Bool.eq_iff_iff, decide_eq_true_iff, P.matchPosition_iff (hright r hr), eq_comm]
    rfl
  rw [table, find_build]
  congr 2
  funext e
  rw [decomposeRightCoordinates_snd]

variable (P)

/-- The iterator is at a left cell and in its bucket. -/
def AtCell (leftCells rightCells : List (Coordinates × V)) (s : ChunkIterator V) : Prop :=
  s.hasCurrent = true → ∃ l ls, s.leftIterator = l :: ls ∧ (l :: ls) <:+ leftCells ∧
    s.currentBucket = partnerCells P rightCells l ∧ s.currentIndex < s.currentBucket.length

/-- The output cells that are left. -/
def cellsLeft (item : V → V → V) (rightCells : List (Coordinates × V)) (s : ChunkIterator V) :
    List (Coordinates × V) :=
  if s.hasCurrent then
    (remaining (partnerCells P rightCells) s.leftIterator
      (s.currentBucket.drop s.currentIndex)).map (cellOf item)
  else []

variable {P}

theorem cellsLeft_of_not (h : s.hasCurrent = false) : cellsLeft P item rightCells s = [] := by
  rw [cellsLeft, h]
  rfl

theorem atCell_of_not (h : s.hasCurrent = false) : AtCell P leftCells rightCells s := by
  intro htrue
  rw [h] at htrue
  cases htrue

variable {bucket : List (Coordinates × V)} {e l : Coordinates × V} {rows : List (Coordinates × V)}
  {T : Table V} {coords : Coordinates}

theorem bucketOf_eq_some (h : bucketOf rows = some bucket) : bucket = rows ∧ 0 < rows.length := by
  cases rows with
  | nil => cases h
  | cons e rows => exact ⟨(Option.some.inj h).symm, Nat.succ_pos _⟩

theorem bucketOf_eq_none (h : bucketOf rows = none) : rows = [] := by
  cases rows with
  | nil => rfl
  | cons e rows => cases h

theorem length_joinKey : (joinKey P).length = nJoinDims P.ljd :=
  length_replicate

theorem length_leftKey (l : Coordinates) : (P.leftKey l).length = nJoinDims P.ljd := by
  rw [Pairing.leftKey, length_map, P.nJoinDims_ljd]

theorem current_of_atCell (hs : s.hasCurrent = true) (hl : s.leftIterator = l :: ls)
    (he : s.currentBucket[s.currentIndex]? = some e) :
    s.current T = some (cellOf T.item (l, e)) := by
  rw [ChunkIterator.current, if_pos hs, hl]
  rw [he]
  rfl

theorem cell_current_of_not (hs : s.hasCurrent = false) : s.current T = none := by
  rw [ChunkIterator.current, hs]
  rfl

theorem cellsLeft_cons (hs : s.hasCurrent = true) (hl : s.leftIterator = l :: ls)
    (he : s.currentBucket[s.currentIndex]? = some e) :
    cellsLeft P item rightCells s = cellOf item (l, e) ::
      (remaining (partnerCells P rightCells) (l :: ls)
        (s.currentBucket.drop (s.currentIndex + 1))).map (cellOf item) := by
  rcases List.getElem?_eq_some_iff.mp he with ⟨hlt, rfl⟩
  rw [cellsLeft, if_pos hs, hl, List.drop_eq_getElem_cons]
  rfl

theorem AtCell.finished (h : AtCell P leftCells rightCells s)
    (hrest : cellsLeft P item rightCells s = []) : s.hasCurrent = false := by
  cases hs : s.hasCurrent with
  | false => rfl
  | true =>
    rcases h hs with ⟨l, ls, hl, -, -, hlt⟩
    rw [cellsLeft_cons hs hl (getElem?_eq_getElem hlt)] at hrest
    cases hrest

theorem AtCell.suffix (h : AtCell P leftCells rightCells s) :
    cellsLeft P item rightCells s <:+ cellPairs P item leftCells rightCells := by
  cases hs : s.hasCurrent with
  | false =>
    rw [cellsLeft_of_not hs]
    exact nil_suffix
  | true =>
    rcases h hs with ⟨l, ls, hl, ⟨front, hls⟩, hbucket, -⟩
    have hsplit : partnerCells P rightCells l =
        s.currentBucket.take s.currentIndex ++ s.currentBucket.drop s.currentIndex := by
      rw [take_append_drop, hbucket]
    rw [cellsLeft, if_pos hs, hl, cellPairs, ← hls, joined_split hsplit, map_append]
    exact suffix_append _ _

/-! ### The order of the cells -/

theorem partnerCells_sorted (hright : ∀ r ∈ rightCells, r.1.length = rightDims.length)
    (hsorted : Sorted rightCells) (l : Coordinates × V) : Sorted (partnerCells P rightCells l) := by
  rw [Sorted, partnerCells, pairwise_map]
  refine (hsorted.sublist filter_sublist).imp_of_mem ?_
  intro r r' hr hr' hlt
  rw [mem_filter] at hr hr'
  have hkey := (P.matchPosition_iff (hright r hr.1)).mp hr.2
  have hkey' := (P.matchPosition_iff (hright r' hr'.1)).mp hr'.2
  rwa [unjoined_lt_iff ((hright r hr.1).trans P.length_rjd.symm)
    ((hright r' hr'.1).trans P.length_rjd.symm) (hkey.symm.trans hkey')]

/-! ### Looking up a position -/

/-- A sorted bucket has the entries before a position in front. -/
theorem lt_takeWhile_iff {m : Nat} (hsorted : Sorted bucket) (he : bucket[m]? = some e) :
    m < (bucket.takeWhile fun e => isAfter e.1 coords).length ↔ e.1 < coords := by
  have hsplit := takeWhile_append_dropWhile (p := fun e => isAfter e.1 coords) (l := bucket)
  have hdrop : bucket.dropWhile (fun e => isAfter e.1 coords) = _ := hsorted.dropWhile_lt coords
  rw [← hsplit] at he
  constructor
  · intro hm
    rw [getElem?_append_left hm] at he
    simpa using mem_takeWhile_imp (mem_of_getElem? he)
  · intro hlt
    by_contra hm
    rw [getElem?_append_right (Nat.le_of_not_lt hm), hdrop] at he
    have hge := (mem_filter.mp (mem_of_getElem? he)).2
    exact hlt.not_ge (decide_eq_true_iff.mp hge)

/-- The binary search finds the entry of a sorted bucket. -/
theorem findValueInBucket_eq {i : Nat} (hsorted : Sorted bucket) :
    findValueInBucket bucket coords = some i ↔ (bucket[i]?.map Prod.fst) = some coords := by
  have hlen : (bucket.takeWhile fun e => isAfter e.1 coords).length ≤ bucket.length :=
    (takeWhile_sublist _).length_le
  have hcompare : ∀ m, m < bucket.length → compareAt bucket coords m =
      .ok (if m < (bucket.takeWhile fun e => isAfter e.1 coords).length then .lt else .gt) := by
    intro m hm
    have he := getElem?_eq_getElem hm
    rw [compareAt, he]
    simp [lt_takeWhile_iff hsorted he]
  have hbisect : bisect (compareAt bucket coords) bucket.length 0 bucket.length =
      .ok (bucket.takeWhile fun e => isAfter e.1 coords).length := by
    refine bisect_eq (Nat.zero_le _) hlen (Nat.sub_le _ _) ?_ ?_
    · intro m hm
      rw [hcompare m (by omega), if_pos hm]
      exact .inl rfl
    · intro m hm hlt
      rw [hcompare m hlt, if_neg (by omega)]
  rw [findValueInBucket, hbisect]
  dsimp only
  constructor
  · intro h
    split at h
    · rename_i hfound
      cases h
      exact hfound
    · cases h
  · intro h
    rcases Option.map_eq_some_iff.mp h with ⟨e, he, rfl⟩
    have hi : i = (bucket.takeWhile fun x => isAfter x.1 e.1).length := by
      have hnot : ¬i < (bucket.takeWhile fun x => isAfter x.1 e.1).length := by
        rw [lt_takeWhile_iff hsorted he]
        exact lt_irrefl _
      by_contra hne
      rcases List.getElem?_eq_some_iff.mp he with ⟨hlt, rfl⟩
      have hbound : (bucket.takeWhile fun x => isAfter x.1 bucket[i].1).length < bucket.length := by
        omega
      have hless := List.pairwise_iff_getElem.mp hsorted _ _ hbound hlt (by omega)
      have := (lt_takeWhile_iff hsorted (getElem?_eq_getElem hbound)).mpr hless
      omega
    rw [← hi, if_pos h]

theorem mem_cellPairs_keys :
    pos ∈ (cellPairs P item leftCells rightCells).map Prod.fst ↔
      ∃ l ∈ leftCells, ∃ e ∈ partnerCells P rightCells l, pos = l.1 ++ e.1 := by
  rw [cellPairs, map_map, mem_map]
  constructor
  · rintro ⟨x, hx, rfl⟩
    rcases mem_joined.mp hx with ⟨hl, he⟩
    exact ⟨x.1, hl, x.2, he, rfl⟩
  · rintro ⟨l, hl, e, he, rfl⟩
    exact ⟨(l, e), mem_joined.mpr ⟨hl, he⟩, rfl⟩

/-- A position of a cell, taken apart. -/
theorem mem_cellPairs_parts (hleft : ∀ l ∈ leftCells, l.1.length = leftDims.length)
    (hmem : pos ∈ (cellPairs P item leftCells rightCells).map Prod.fst) :
    ∃ l ∈ leftCells, l.1 = pos.take leftDims.length ∧
      ∃ e ∈ partnerCells P rightCells l, e.1 = pos.drop leftDims.length := by
  rcases mem_cellPairs_keys.mp hmem with ⟨l, hl, e, he, rfl⟩
  exact ⟨l, hl, (take_left' (hleft l hl)).symm, e, he, (drop_left' (hleft l hl)).symm⟩

theorem setPosition_eq_of_nil
    (hl : leftCells.dropWhile (fun e => !decide (e.1 = pos.take leftDims.length)) = []) :
    s.setPosition P (table P item leftCells rightCells) pos =
      (false, { s with leftIterator := [], hasCurrent := false }) := by
  have hcells : (table P item leftCells rightCells).leftCells = leftCells := rfl
  rw [ChunkIterator.setPosition, decomposeOutCoordinates, P.length_ljd, hcells]
  dsimp only
  rw [hl]

/-! ### The chunk iterator -/

variable (hleft : ∀ l ∈ leftCells, l.1.length = leftDims.length)
  (hright : ∀ r ∈ rightCells, r.1.length = rightDims.length)

include hleft hright

theorem probe_spec (hls : ls <:+ leftCells)
    {key : Coordinates} (hkey : key.length = nJoinDims P.ljd) :
    AtCell P leftCells rightCells
        (probe P (table P item leftCells rightCells) s ls key) ∧
      cellsLeft P item rightCells
          (probe P (table P item leftCells rightCells) s ls key) =
        (joined ls (partnerCells P rightCells)).map (cellOf item) := by
  induction ls generalizing key with
  | nil => exact ⟨atCell_of_not rfl, rfl⟩
  | cons l ls ih =>
    have hl := hleft l (hls.subset mem_cons_self)
    rw [probe, P.decomposeLeftCoordinates_eq hl hkey, find_rightHash hright]
    split
    · rename_i bucket hbucket
      rcases bucketOf_eq_some hbucket with ⟨rfl, hpos⟩
      refine ⟨fun _ => ⟨l, ls, rfl, hls, rfl, hpos⟩, ?_⟩
      rfl
    · rename_i hnone
      have ih := ih ((suffix_cons l ls).trans hls) (length_leftKey l.1)
      refine ⟨ih.1, ?_⟩
      rw [ih.2, joined_cons_of_nil (bucketOf_eq_none hnone)]

/-- One step of the chunk iterator. -/
theorem AtCell.step (h : AtCell P leftCells rightCells s)
    {x : Coordinates × V} {rest : List (Coordinates × V)}
    (hrest : cellsLeft P item rightCells s = x :: rest) :
    s.current (table P item leftCells rightCells) = some x ∧
      ∃ s', s.next P (table P item leftCells rightCells) = .ok s' ∧
        AtCell P leftCells rightCells s' ∧ cellsLeft P item rightCells s' = rest := by
  cases hs : s.hasCurrent with
  | false =>
    rw [cellsLeft_of_not hs] at hrest
    cases hrest
  | true =>
    rcases h hs with ⟨l, ls, hl, hls, hbucket, hlt⟩
    have he := getElem?_eq_getElem hlt
    rw [cellsLeft_cons hs hl he] at hrest
    cases hrest
    refine ⟨current_of_atCell hs hl he, ?_⟩
    rw [ChunkIterator.next, if_pos hs]
    by_cases hend : s.currentIndex + 1 ≥ s.currentBucket.length
    · rw [if_pos hend, hl]
      have htail : (l :: ls).tail <:+ leftCells := (suffix_cons l ls).trans hls
      refine ⟨_, rfl, (probe_spec hleft hright htail length_joinKey).1, ?_⟩
      rw [drop_eq_nil_of_le hend]
      exact (probe_spec hleft hright htail length_joinKey).2
    · rw [if_neg hend]
      refine ⟨_, rfl, fun _ => ⟨l, ls, hl, hls, hbucket, Nat.lt_of_not_ge hend⟩, ?_⟩
      rw [cellsLeft, if_pos hs]
      rw [hl]

theorem cellPairs_sorted (hsleft : Sorted leftCells)
    (hsright : Sorted rightCells) : Sorted (cellPairs P item leftCells rightCells) := by
  rw [cellPairs, Sorted, pairwise_map]
  apply pairwise_joined
  · refine hsleft.imp_of_mem ?_
    intro l l' hl hl' hlt e _ e' _
    exact append_lt_append ((hleft l hl).trans (hleft l' hl').symm) hlt
  · intro l _
    refine (partnerCells_sorted hright hsright l).imp ?_
    intro e e' hlt
    exact append_left_lt hlt

/-- What `setPosition` does if the left chunk has the cell. -/
theorem setPosition_eq (hl : leftCells.dropWhile
    (fun e => !decide (e.1 = pos.take leftDims.length)) = l :: ls) :
    s.setPosition P (table P item leftCells rightCells) pos =
      s.enterBucket (l :: ls) (pos.drop leftDims.length)
        (bucketOf (partnerCells P rightCells l)) := by
  rcases filter_of_dropWhile hl with ⟨hpos, hsuf, -⟩
  have hpos : l.1 = pos.take leftDims.length := of_decide_eq_true hpos
  have hlen : leftDims.length ≤ pos.length := by
    have := hleft l (hsuf.subset mem_cons_self)
    rw [hpos, length_take] at this
    omega
  have hcells : (table P item leftCells rightCells).leftCells = leftCells := rfl
  rw [ChunkIterator.setPosition, P.decomposeOutCoordinates_eq hlen length_joinKey, hcells]
  dsimp only
  rw [hl, ← hpos, find_rightHash hright]

/-- A position is found if it is that of a cell. -/
theorem cell_setPosition_cases (hsright : Sorted rightCells) :
    (pos ∉ (cellPairs P item leftCells rightCells).map Prod.fst ∧
        ∃ s', s.setPosition P (table P item leftCells rightCells) pos = (false, s') ∧
          s'.hasCurrent = false) ∨
      ∃ s', s.setPosition P (table P item leftCells rightCells) pos = (true, s') ∧
        AtCell P leftCells rightCells s' ∧
          ∃ x rest, cellsLeft P item rightCells s' = (pos, x) :: rest := by
  cases hl : leftCells.dropWhile fun e => !decide (e.1 = pos.take leftDims.length) with
  | nil =>
    refine .inl ⟨?_, _, setPosition_eq_of_nil hl, rfl⟩
    intro hmem
    rcases mem_cellPairs_parts hleft hmem with ⟨l, hmem, hpos, -⟩
    have := dropWhile_eq_nil_iff.mp hl l hmem
    simp [hpos] at this
  | cons l ls =>
    rcases filter_of_dropWhile hl with ⟨hpos, hsuf, -⟩
    have hpos : l.1 = pos.take leftDims.length := of_decide_eq_true hpos
    have hparts : pos ∈ (cellPairs P item leftCells rightCells).map Prod.fst →
        ∃ e ∈ partnerCells P rightCells l, e.1 = pos.drop leftDims.length := by
      intro hmem
      rcases mem_cellPairs_parts hleft hmem with ⟨l', -, hpos', e, he, hdrop⟩
      rw [partnerCells, hpos', ← hpos] at he
      exact ⟨e, he, hdrop⟩
    rw [setPosition_eq hleft hright hl]
    cases hbucket : bucketOf (partnerCells P rightCells l) with
    | none =>
      refine .inl ⟨?_, _, rfl, rfl⟩
      intro hmem
      rcases hparts hmem with ⟨e, he, -⟩
      rw [bucketOf_eq_none hbucket] at he
      cases he
    | some bucket =>
      rcases bucketOf_eq_some hbucket with ⟨rfl, -⟩
      have hsorted := partnerCells_sorted (P := P) hright hsright l
      cases hfind : findValueInBucket (partnerCells P rightCells l) (pos.drop leftDims.length) with
      | none =>
        refine .inl ⟨?_, _, by rw [enterBucket, hfind], rfl⟩
        intro hmem
        rcases hparts hmem with ⟨e, he, hdrop⟩
        rcases mem_iff_getElem?.mp he with ⟨i, hi⟩
        have := (findValueInBucket_eq hsorted).mpr
          (show ((partnerCells P rightCells l)[i]?.map Prod.fst) = some _ by
            rw [hi, Option.map_some, hdrop])
        rw [hfind] at this
        cases this
      | some i =>
        rcases Option.map_eq_some_iff.mp ((findValueInBucket_eq hsorted).mp hfind) with
          ⟨e, he, hdrop⟩
        have hcell : cellOf item (l, e) = (pos, item l.2 e.2) := by
          rw [cellOf, composeOutCoordinates, hdrop, hpos, take_append_drop]
        refine .inr ⟨_, by rw [enterBucket, hfind], fun _ => ?_, item l.2 e.2, ?_⟩
        · exact ⟨l, ls, rfl, hsuf, rfl, (List.getElem?_eq_some_iff.mp he).1⟩
        · rw [← hcell]
          exact ⟨_, cellsLeft_cons rfl rfl he⟩

/-- The chunk iterator serves the pairs of cells that match. -/
theorem chunkIterator_serves (hsleft : Sorted leftCells)
    (hsright : Sorted rightCells) :
    Serves (chunkIterator P (table P item leftCells rightCells))
      (start P (table P item leftCells rightCells))
      (cellPairs P item leftCells rightCells) (Valid P) (fun _ => True) id := by
  have hrestart : ∀ s : ChunkIterator V,
      AtCell P leftCells rightCells (s.restart P (table P item leftCells rightCells)) ∧
        cellsLeft P item rightCells (s.restart P (table P item leftCells rightCells)) =
          cellPairs P item leftCells rightCells :=
    fun s => probe_spec hleft hright suffix_rfl length_joinKey
  refine serves_of_rest (AtCell P leftCells rightCells) (cellsLeft P item rightCells)
    (cellPairs_sorted hleft hright hsleft hsright) (hrestart _) (fun s => AtCell.suffix)
    (fun s h => h) ?_ (fun s x l hs hl => hs.step hleft hright hl) (fun s _ => hrestart s) ?_
  · intro s hs hrest
    have hnot := hs.finished hrest
    refine ⟨cell_current_of_not hnot, ?_⟩
    intro s' hs'
    have hnext : s.next P (table P item leftCells rightCells) = .error .noCurrentElement := by
      rw [ChunkIterator.next, hnot]
      rfl
    cases hnext.symm.trans hs'
  · intro s pos _
    rcases cell_setPosition_cases hleft hright hsright with ⟨hmem, s', hs', hnot⟩ |
      ⟨s', hs', hat, hrest⟩
    · exact .inl ⟨s', hs', atCell_of_not hnot, cellsLeft_of_not hnot, fun _ _ => hmem⟩
    · exact .inr ⟨s', hs', hat, fun _ => hrest⟩

end Cells

/-! ## Attributes -/

namespace CrossJoinArray

variable {V : Type} {J : CrossJoinArray V} {a : Nat} {attr : Side × Nat}

theorem filter_isEmptyIndicator (attrs : Attributes) :
    ((List.range attrs.size).filter fun id => !attrs.isEmptyIndicator id) =
      List.range attrs.nData := by
  have hdata : ((List.range attrs.nData).filter fun id => !attrs.isEmptyIndicator id) =
      List.range attrs.nData := by
    rw [filter_eq_self]
    intro id hid
    have hid := mem_range.mp hid
    rw [Attributes.isEmptyIndicator, emptyBitmap]
    split
    · simpa using hid.ne'
    · rfl
  cases h : attrs.emptyable with
  | false =>
    rw [Attributes.size, h]
    exact hdata
  | true =>
    have htag : attrs.isEmptyIndicator attrs.nData = true := by
      rw [Attributes.isEmptyIndicator, emptyBitmap, h]
      simp
    rw [Attributes.size, h, if_pos rfl, range_succ, filter_append, hdata,
      filter_cons_of_neg (by simp [htag])]
    exact append_nil _

/-- An attribute of the output is a data attribute of the left array, an attribute of the
right array, or the bitmap of the left array. -/
theorem attributes_cases (h : J.attributes[a]? = some attr) :
    (a < J.leftAttrs.nData ∧ attr = (.left, a)) ∨
      (∃ id, id < J.rightAttrs.size ∧ a = J.leftAttrs.nData + id ∧ attr = (.right, id)) ∨
      (J.leftAttrs.emptyable = true ∧ J.rightAttrs.emptyable = false ∧
        a = J.leftAttrs.nData + J.rightAttrs.size ∧ attr = (.left, J.leftAttrs.nData)) := by
  rw [attributes, filter_isEmptyIndicator] at h
  by_cases ha : a < J.leftAttrs.nData
  · refine .inl ⟨ha, ?_⟩
    rw [List.append_assoc, List.getElem?_append_left (by simpa using ha), List.getElem?_map,
      List.getElem?_range ha] at h
    exact (Option.some.inj h).symm
  · by_cases ha' : a < J.leftAttrs.nData + J.rightAttrs.size
    · refine .inr (.inl ⟨a - J.leftAttrs.nData, by omega, by omega, ?_⟩)
      rw [List.getElem?_append_left (by simpa using ha'),
        List.getElem?_append_right (by simpa using ha), List.getElem?_map, List.length_map,
        List.length_range, List.getElem?_range (by omega)] at h
      exact (Option.some.inj h).symm
    · rw [List.getElem?_append_right (by simpa using ha')] at h
      simp only [List.length_append, List.length_map, List.length_range] at h
      rw [emptyBitmap, emptyBitmap] at h
      cases hl : J.leftAttrs.emptyable with
      | false =>
        rw [hl] at h
        cases h
      | true =>
        cases hr : J.rightAttrs.emptyable with
        | true =>
          rw [hl, hr] at h
          cases h
        | false =>
          rw [hl, hr] at h
          rcases List.getElem?_eq_some_iff.mp h with ⟨hlt, hattr⟩
          have hlen : a - (J.leftAttrs.nData + J.rightAttrs.size) < 1 := hlt
          refine .inr (.inr ⟨rfl, rfl, by omega, ?_⟩)
          rw [← hattr]
          exact List.mem_singleton.mp (List.getElem_mem hlt)

theorem fromRight_eq {leftAttr target : Nat} (h : target < J.rightAttrs.size) :
    J.fromRight leftAttr target =
      .ok { leftAttr := leftAttr, rightAttr := target, isLeft := false } :=
  if_pos h

theorem emptyable_cases (attrs : Attributes) :
    (attrs.emptyable = false ∧ attrs.emptyBitmap = none ∧ attrs.size = attrs.nData) ∨
      (attrs.emptyable = true ∧ attrs.emptyBitmap = some attrs.nData ∧
        attrs.size = attrs.nData + 1) := by
  rw [emptyBitmap, Attributes.size]
  cases attrs.emptyable <;> simp

theorem getConstIteratorImpl_left (ha : a < J.leftAttrs.nData) :
    ∃ rightAttr, J.getConstIteratorImpl a = fromLeft a rightAttr := by
  rcases emptyable_cases J.leftAttrs with ⟨-, hl, hsize⟩ | ⟨-, hl, hsize⟩ <;>
    rcases emptyable_cases J.rightAttrs with ⟨-, hr, -⟩ | ⟨-, hr, -⟩ <;>
    simp [getConstIteratorImpl, hl, hr, hsize, Nat.not_le.mpr ha,
      Nat.not_le.mpr (Nat.lt_succ_of_lt ha)]

theorem getConstIteratorImpl_right {id : Nat} (hid : id < J.rightAttrs.size) :
    ∃ leftAttr, J.getConstIteratorImpl (J.leftAttrs.nData + id) = J.fromRight leftAttr id := by
  rcases emptyable_cases J.leftAttrs with ⟨-, hl, hsize⟩ | ⟨-, hl, hsize⟩
  · rcases emptyable_cases J.rightAttrs with ⟨-, hr, -⟩ | ⟨-, hr, -⟩
    · refine ⟨J.leftAttrs.firstDataAttribute, ?_⟩
      rw [getConstIteratorImpl, hl, hr]
      rw [hsize, if_pos (by omega), if_neg (by omega), Nat.add_sub_cancel_left]
    · refine ⟨J.leftAttrs.firstDataAttribute, ?_⟩
      rw [getConstIteratorImpl, hl, hr]
      dsimp only
      rw [hsize, if_pos (by omega), Nat.add_sub_cancel_left]
  · have hsub : J.leftAttrs.nData + id + 1 - (J.leftAttrs.nData + 1) = id := by omega
    refine ⟨J.leftAttrs.nData, ?_⟩
    rcases emptyable_cases J.rightAttrs with ⟨-, hr, -⟩ | ⟨-, hr, -⟩
    · rw [getConstIteratorImpl, hl, hr]
      dsimp only
      rw [hsize, if_pos (show _ + id ≥ _ by omega), if_pos (by omega), if_neg (by omega), hsub]
    · rw [getConstIteratorImpl, hl, hr]
      dsimp only
      rw [hsize, if_pos (show _ + id ≥ _ by omega), if_pos (by omega), hsub]

/-- For the bitmap of the left array alone, any attribute of the right array will do. -/
theorem getConstIteratorImpl_bitmap (hl : J.leftAttrs.emptyable = true)
    (hr : J.rightAttrs.emptyable = false) :
    J.getConstIteratorImpl (J.leftAttrs.nData + J.rightAttrs.size) =
      J.fromRight J.leftAttrs.nData 0 := by
  rcases emptyable_cases J.leftAttrs with ⟨hl', -⟩ | ⟨-, hl', hsize⟩
  · rw [hl] at hl'
    cases hl'
  · rcases emptyable_cases J.rightAttrs with ⟨-, hr', -⟩ | ⟨hr', -⟩
    · rw [getConstIteratorImpl, hl', hr']
      dsimp only
      rw [if_pos (show _ + J.rightAttrs.size ≥ _ by omega), if_pos (by omega), if_pos (by omega)]
      rfl
    · rw [hr] at hr'
      cases hr'

/-- The inputs that are opened have the attribute. -/
theorem getConstIteratorImpl_eq (h : J.attributes[a]? = some attr) :
    ∃ x, J.getConstIteratorImpl a = .ok x ∧ (J.isEmptyIndicator attr = false →
      x.isLeft = decide (attr.1 = .left) ∧
        attr.2 = if x.isLeft then x.leftAttr else x.rightAttr) := by
  rcases attributes_cases h with ⟨ha, rfl⟩ | ⟨id, hid, rfl, rfl⟩ | ⟨hl, hr, rfl, rfl⟩
  · rcases getConstIteratorImpl_left ha with ⟨rightAttr, heq⟩
    exact ⟨_, heq, fun _ => ⟨rfl, rfl⟩⟩
  · rcases getConstIteratorImpl_right hid with ⟨leftAttr, heq⟩
    exact ⟨_, heq.trans (fromRight_eq hid), fun _ => ⟨rfl, rfl⟩⟩
  · have hsize : 0 < J.rightAttrs.size := J.rightAttrs.data_pos.trans_le (Nat.le_add_right _ _)
    refine ⟨_, (getConstIteratorImpl_bitmap hl hr).trans (fromRight_eq hsize), ?_⟩
    intro hnot
    rw [isEmptyIndicator, Attributes.isEmptyIndicator, emptyBitmap, hl] at hnot
    simp at hnot

/-! ## What the join holds -/

variable (J)

/-- The value of an output attribute where a left and a right cell match. -/
def value (attr : Side × Nat) (left right : Nat → V) : V :=
  if J.isEmptyIndicator attr then J.setBool true
  else
    match attr.1 with
    | .left => left attr.2
    | .right => right attr.2

/-- The item of a chunk iterator. -/
def item (attr : Side × Nat) (x : Inputs) : V → V → V :=
  getItem J.setBool (J.isEmptyIndicator attr) x.isLeft

def leftInput (x : Inputs) : ChunkedArray J.leftDims V :=
  ofAttribute J.left x.leftAttr

def rightInput (x : Inputs) : ChunkedArray J.rightDims V :=
  ofAttribute J.right x.rightAttr

/-- The relational join: a left and a right cell with the same joined coordinates. -/
def Joined (attr : Side × Nat) (pos : Coordinates) (v : V) : Prop :=
  ∃ l r left right, J.left.cell l = some left ∧ J.right.cell r = some right ∧
    J.pairing.Matches l r ∧ pos = J.pairing.outPosition l r ∧ v = J.value attr left right

/-- The same for the cells of one chunk, which may include those in the overlap. -/
def JoinedIn (attr : Side × Nat) (withOverlap : Bool) (chunkPos pos : Coordinates) (v : V) : Prop :=
  ∃ lp rp leftChunk rightChunk, J.left.chunks.get lp = some leftChunk ∧
    J.right.chunks.get rp = some rightChunk ∧ J.pairing.Matches lp rp ∧
    chunkPos = J.pairing.outPosition lp rp ∧
    ∃ l r left right, leftChunk.get l = some left ∧ InChunk J.leftDims withOverlap lp l ∧
      rightChunk.get r = some right ∧ InChunk J.rightDims withOverlap rp r ∧
      J.pairing.Matches l r ∧ pos = J.pairing.outPosition l r ∧ v = J.value attr left right

/-- The iterators of one attribute. -/
structure Iterates (a : Nat) (attr : Side × Nat) (x : Inputs)
    (chunks : List (Coordinates × CrossJoinChunk V)) : Prop where
  opens : J.getConstIteratorImpl a = .ok x
  serves : Serves (arrayIterator J.pairing (J.leftInput x) (J.rightInput x))
    (start J.pairing (J.leftInput x) (J.rightInput x)) chunks
    (Valid J.pairing) (Inside J.pairing) (chunkOf J.pairing)
  positions : ∀ pos, pos ∈ chunks.map Prod.fst ↔ ∃ l r, (J.left.chunks.get l).isSome ∧
    (J.right.chunks.get r).isSome ∧ J.pairing.Matches l r ∧ pos = J.pairing.outPosition l r
  aligned : ∀ pos ∈ chunks.map Prod.fst,
    Valid J.pairing pos ∧ Inside J.pairing pos ∧ chunkOf J.pairing pos = pos
  wrong_mode : ∀ c ∈ chunks, ∀ mode, mode.ignoreEmptyCells = false →
    getConstIterator J.pairing (J.item attr x) mode c.2 = .error .chunkWrongIterationMode
  cells : ∀ c ∈ chunks, ∀ mode, mode.ignoreEmptyCells = true → ∃ T cells,
    getConstIterator J.pairing (J.item attr x) mode c.2 = .ok T ∧
    Serves (chunkIterator J.pairing T) (start J.pairing T) cells
      (Valid J.pairing) (fun _ => True) id ∧
    (∀ e ∈ cells, Within (firstPos J.pairing (!mode.ignoreOverlaps) c.2)
      (lastPos J.pairing (!mode.ignoreOverlaps) c.2) e.1) ∧
    ∀ pos v, (pos, v) ∈ cells ↔ J.JoinedIn attr (!mode.ignoreOverlaps) c.1 pos v

/-- Somewhere in the iteration over an attribute there is a cell. -/
def Holds (a : Nat) (attr : Side × Nat) (pos : Coordinates) (v : V) : Prop :=
  ∃ x chunks c T cells, J.getConstIteratorImpl a = .ok x ∧
    Iteration.Visits (current J.pairing)
      (ArrayIterator.next J.pairing (J.rightInput x))
      (start J.pairing (J.leftInput x) (J.rightInput x)) chunks ∧ c ∈ chunks ∧
    getConstIterator J.pairing (J.item attr x) { ignoreOverlaps := true, ignoreEmptyCells := true }
      c.2 = .ok T ∧
    Iteration.Visits (ChunkIterator.current T) (ChunkIterator.next J.pairing T)
      (start J.pairing T) cells ∧ (pos, v) ∈ cells

/-- However the left array is spread over instances, each of them iterates over its part
of the join in order, and has the cells of the join whose left cell it has. -/
def Exact {ι : Type} [DecidableEq ι] (J : CrossJoinArray V) (instanceOf : Coordinates → ι) : Prop :=
  ∀ a attr, J.attributes[a]? = some attr → ∀ i,
    (∃ x chunks, (J.onInstance instanceOf i).Iterates a attr x chunks) ∧
    ∀ pos v, (J.onInstance instanceOf i).Holds a attr pos v ↔
      ∃ l r left right, J.left.cell l = some left ∧
        instanceOf (getChunkPositionFor (descs J.leftDims) l) = i ∧ J.right.cell r = some right ∧
        J.pairing.Matches l r ∧ pos = J.pairing.outPosition l r ∧ v = J.value attr left right

variable {J} {pos : Coordinates} {R : Type} {v : V}

section Content

variable {dims : List Dimension} {A : ChunkedArray dims (Nat → V)} {x : Inputs}
  {c : Coordinates × Chunk V}

variable {attr : Nat} {mode : Mode} {chunk : Chunk (Nat → V)}

theorem mem_ofAttribute (h : c ∈ (ofAttribute A attr).chunks.entries) :
    ∃ chunk, A.chunks.get c.1 = some chunk ∧ c.2 = chunk.map fun cell => cell attr := by
  have hget := mem_entries.mp h
  rw [ofAttribute, get_map] at hget
  rcases Option.map_eq_some_iff.mp hget with ⟨chunk, hchunk, heq⟩
  exact ⟨chunk, hchunk, heq.symm⟩

theorem ofAttribute_get (h : A.chunks.get pos = some chunk) :
    (pos, chunk.map fun cell => cell attr) ∈ (ofAttribute A attr).chunks.entries := by
  rw [mem_entries, ofAttribute, get_map, h]
  rfl

theorem mem_cellsOf {lp l : Coordinates} :
    (l, v) ∈ cellsOf dims mode (lp, chunk.map fun cell => cell attr) ↔
      ∃ cell, chunk.get l = some cell ∧ InChunk dims (!mode.ignoreOverlaps) lp l ∧
        v = cell attr := by
  rw [cellsOf, mem_filter, mem_entries, get_map, Option.map_eq_some_iff, decide_eq_true_iff]
  constructor
  · rintro ⟨⟨cell, hcell, rfl⟩, hin⟩
    exact ⟨cell, hcell, hin, rfl⟩
  · rintro ⟨cell, hcell, hin, rfl⟩
    exact ⟨⟨cell, hcell, rfl⟩, hin⟩

theorem length_chunkPosition {A : ChunkedArray dims R}
    {chunk : Chunk R} (h : A.chunks.get pos = some chunk) : pos.length = dims.length :=
  length_of_chunk (mem_entries.mpr h)

theorem length_cellsOf {A : ChunkedArray dims V} (hc : c ∈ A.chunks.entries) :
    ∀ e ∈ cellsOf dims mode c, e.1.length = dims.length := by
  intro e he
  have hin := of_decide_eq_true (mem_filter.mp he).2
  exact hin.length_eq (length_of_chunk hc)

theorem sorted_cellsOf : Sorted (cellsOf dims mode c) :=
  c.2.sorted.sublist filter_sublist

theorem mem_cellPairs {leftDims rightDims : List Dimension}
    {P : Pairing leftDims.length rightDims.length} {item : V → V → V}
    {leftCells rightCells : List (Coordinates × V)} {e : Coordinates × V} :
    e ∈ cellPairs P item leftCells rightCells ↔ ∃ l ∈ leftCells, ∃ r ∈ rightCells,
      matchPosition l.1 P.rjd r.1 ∧ e = (getPosition P.rjd l.1 r.1, item l.2 r.2) := by
  rw [cellPairs, mem_map]
  constructor
  · rintro ⟨x, hx, rfl⟩
    rcases mem_joined.mp hx with ⟨hl, hx⟩
    rcases mem_map.mp hx with ⟨r, hr, heq⟩
    rcases mem_filter.mp hr with ⟨hr, hmatch⟩
    refine ⟨x.1, hl, r, hr, hmatch, ?_⟩
    rw [cellOf, ← heq]
    rfl
  · rintro ⟨l, hl, r, hr, hmatch, rfl⟩
    refine ⟨(l, (unjoined P.rjd r.1, r.2)), mem_joined.mpr ⟨hl, ?_⟩, rfl⟩
    exact mem_map.mpr ⟨r, mem_filter.mpr ⟨hr, hmatch⟩, rfl⟩

end Content

theorem item_eq {x : Inputs} {left right : Nat → V}
    (h : J.isEmptyIndicator attr = false → x.isLeft = decide (attr.1 = .left) ∧
      attr.2 = if x.isLeft then x.leftAttr else x.rightAttr) :
    J.item attr x (left x.leftAttr) (right x.rightAttr) = J.value attr left right := by
  rw [item, value]
  cases hempty : J.isEmptyIndicator attr with
  | true => rfl
  | false =>
    rcases h hempty with ⟨hside, hid⟩
    rw [hside] at hid ⊢
    rcases attr with ⟨side, id⟩
    cases side with
    | left =>
      rw [hid]
      rfl
    | right =>
      rw [hid]
      rfl

section Iterates

variable {x : Inputs} {c : Coordinates × CrossJoinChunk V}

/-- Where an output chunk comes from. -/
theorem chunk_inputs
    (hc : c ∈ chunkPairs J.pairing (J.leftInput x) (J.rightInput x)) :
    ∃ leftChunk rightChunk, J.left.chunks.get c.2.leftChunk.1 = some leftChunk ∧
      J.right.chunks.get c.2.rightChunk.1 = some rightChunk ∧
      c.2.leftChunk.2 = leftChunk.map (fun cell => cell x.leftAttr) ∧
      c.2.rightChunk.2 = rightChunk.map (fun cell => cell x.rightAttr) ∧
      matchPosition c.2.leftChunk.1 J.pairing.rjd c.2.rightChunk.1 ∧
      c.1 = getPosition J.pairing.rjd c.2.leftChunk.1 c.2.rightChunk.1 := by
  rcases mem_chunkPairs.mp hc with ⟨hl, hr, hmatch, hpos⟩
  rcases mem_ofAttribute hl with ⟨leftChunk, hleft, hlmap⟩
  rcases mem_ofAttribute hr with ⟨rightChunk, hright, hrmap⟩
  exact ⟨leftChunk, rightChunk, hleft, hright, hlmap, hrmap, hmatch, hpos⟩

theorem chunkPairs_positions (pos : Coordinates) :
    pos ∈ (chunkPairs J.pairing (J.leftInput x) (J.rightInput x)).map Prod.fst ↔
      ∃ l r, (J.left.chunks.get l).isSome ∧ (J.right.chunks.get r).isSome ∧
        J.pairing.Matches l r ∧ pos = J.pairing.outPosition l r := by
  constructor
  · intro hmem
    rcases mem_map.mp hmem with ⟨c, hc, rfl⟩
    rcases chunk_inputs hc with ⟨leftChunk, rightChunk, hl, hr, -, -, hmatch, hpos⟩
    refine ⟨_, _, by rw [hl]; rfl, by rw [hr]; rfl, ?_, ?_⟩
    · exact (J.pairing.matches_iff (length_chunkPosition hl) (length_chunkPosition hr)).mpr hmatch
    · rw [hpos, J.pairing.getPosition_eq (length_chunkPosition hr)]
  · rintro ⟨l, r, hl, hr, hmatch, rfl⟩
    rcases Option.isSome_iff_exists.mp hl with ⟨leftChunk, hl⟩
    rcases Option.isSome_iff_exists.mp hr with ⟨rightChunk, hr⟩
    rw [J.pairing.matches_iff (length_chunkPosition hl) (length_chunkPosition hr)] at hmatch
    rw [← J.pairing.getPosition_eq (length_chunkPosition hr)]
    refine mem_map.mpr ⟨(getPosition J.pairing.rjd l r,
      { leftChunk := (l, leftChunk.map fun cell => cell x.leftAttr)
        rightChunk := (r, rightChunk.map fun cell => cell x.rightAttr) }), ?_, rfl⟩
    exact mem_chunkPairs.mpr ⟨ofAttribute_get hl, ofAttribute_get hr, hmatch, rfl⟩

/-- The position of an output chunk is in the bounds and on the grid of the output. -/
theorem chunkPairs_aligned
    (hmem : pos ∈ (chunkPairs J.pairing (J.leftInput x) (J.rightInput x)).map Prod.fst) :
    Valid J.pairing pos ∧ Inside J.pairing pos ∧ chunkOf J.pairing pos = pos := by
  rcases mem_map.mp hmem with ⟨c, hc, rfl⟩
  rcases chunk_inputs hc with ⟨leftChunk, rightChunk, hl, hr, -, -, hmatch, hpos⟩
  have hllen := length_chunkPosition hl
  have hrlen := length_chunkPosition hr
  have hlgrid := J.left.isChunkPosition _ (mem_entries.mpr hl)
  have hrgrid := J.right.isChunkPosition _ (mem_entries.mpr hr)
  have hrjd := hrlen.trans J.pairing.length_rjd.symm
  have hleft : getLeftPosition J.pairing.ljd c.1 = c.2.leftChunk.1 := by
    rw [getLeftPosition_eq, hpos, getPosition, take_left' hllen]
  have hvalid : Valid J.pairing c.1 := by
    rw [Valid, hpos, getPosition, length_append, length_unjoined hrjd, hllen]
  have hright : getRightPosition J.pairing.ljd J.pairing.rjd c.1 = c.2.rightChunk.1 := by
    have hparts := getPosition_parts hvalid
    rw [hleft] at hparts
    exact (J.pairing.eq_of_getPosition rfl (length_getRightPosition J.pairing c.1) hrlen
      (hleft ▸ matchPosition_parts J.pairing c.1) hmatch (hparts.trans hpos)).2
  refine ⟨hvalid, ⟨?_, ?_⟩, ?_⟩
  · rw [hleft]
    exact contains_of_isChunkPosition hlgrid
  · rw [hright]
    exact contains_of_isChunkPosition hrgrid
  · conv_lhs => rw [hpos]
    rw [chunkOf_getPosition hllen hrlen, getChunkPositionFor_self hlgrid,
      getChunkPositionFor_self hrgrid, hpos]

/-- The cells of an output chunk are the joined ones. -/
theorem mem_cells_iff {mode : Mode}
    (hx : J.isEmptyIndicator attr = false → x.isLeft = decide (attr.1 = .left) ∧
      attr.2 = if x.isLeft then x.leftAttr else x.rightAttr)
    (hc : c ∈ chunkPairs J.pairing (J.leftInput x) (J.rightInput x)) (pos : Coordinates) (v : V) :
    (pos, v) ∈ cellPairs J.pairing (J.item attr x) (cellsOf J.leftDims mode c.2.leftChunk)
        (cellsOf J.rightDims mode c.2.rightChunk) ↔
      J.JoinedIn attr (!mode.ignoreOverlaps) c.1 pos v := by
  rcases chunk_inputs hc with ⟨leftChunk, rightChunk, hlget, hrget, hlmap, hrmap, hcmatch, hpos⟩
  have hllen := length_chunkPosition hlget
  have hrlen := length_chunkPosition hrget
  have hleft : cellsOf J.leftDims mode c.2.leftChunk =
      cellsOf J.leftDims mode (c.2.leftChunk.1, leftChunk.map fun cell => cell x.leftAttr) := by
    rw [← hlmap]
  have hright : cellsOf J.rightDims mode c.2.rightChunk =
      cellsOf J.rightDims mode (c.2.rightChunk.1, rightChunk.map fun cell => cell x.rightAttr) := by
    rw [← hrmap]
  rw [mem_cellPairs, hleft, hright]
  constructor
  · rintro ⟨⟨l, lv⟩, hl, ⟨r, rv⟩, hr, hmatch, heq⟩
    rcases mem_cellsOf.mp hl with ⟨left, hlcell, hlin, rfl⟩
    rcases mem_cellsOf.mp hr with ⟨right, hrcell, hrin, rfl⟩
    have hr' := hrin.length_eq hrlen
    cases heq
    refine ⟨_, _, leftChunk, rightChunk, hlget, hrget,
      (J.pairing.matches_iff hllen hrlen).mpr hcmatch, ?_, l, r, left, right, hlcell, hlin, hrcell,
      hrin, (J.pairing.matches_iff (hlin.length_eq hllen) hr').mpr hmatch, ?_, item_eq hx⟩
    · rw [hpos, J.pairing.getPosition_eq hrlen]
    · exact J.pairing.getPosition_eq hr'
  · rintro ⟨lp, rp, leftChunk', rightChunk', hlget', hrget', hcmatch', hpos', l, r, left, right,
      hlcell, hlin, hrcell, hrin, hmatch, rfl, rfl⟩
    have hllen' := length_chunkPosition hlget'
    have hrlen' := length_chunkPosition hrget'
    rw [J.pairing.matches_iff hllen' hrlen'] at hcmatch'
    rw [← J.pairing.getPosition_eq hrlen', hpos] at hpos'
    -- the input chunks can be found from the position of the output chunk
    rcases J.pairing.eq_of_getPosition (hllen.trans hllen'.symm) hrlen hrlen' hcmatch hcmatch' hpos'
      with ⟨hlp, hrp⟩
    subst hlp
    subst hrp
    rw [hlget, Option.some.injEq] at hlget'
    rw [hrget, Option.some.injEq] at hrget'
    subst hlget'
    subst hrget'
    have hr' := hrin.length_eq hrlen
    rw [J.pairing.matches_iff (hlin.length_eq hllen) hr'] at hmatch
    refine ⟨(l, left x.leftAttr), mem_cellsOf.mpr ⟨left, hlcell, hlin, rfl⟩,
      (r, right x.rightAttr), mem_cellsOf.mpr ⟨right, hrcell, hrin, rfl⟩, hmatch, ?_⟩
    rw [item_eq hx, J.pairing.getPosition_eq hr']

/-- The iterators of one attribute serve the join. -/
theorem iterates (h : J.attributes[a]? = some attr) :
    ∃ x, J.Iterates a attr x (chunkPairs J.pairing (J.leftInput x) (J.rightInput x)) := by
  rcases getConstIteratorImpl_eq h with ⟨x, hx, hattr⟩
  refine ⟨x, hx, arrayIterator_serves J.conformant, chunkPairs_positions,
    fun pos => chunkPairs_aligned, ?_, ?_⟩
  · intro c _ mode hmode
    rw [getConstIterator, hmode]
    rfl
  · intro c hc mode hmode
    rcases mem_chunkPairs.mp hc with ⟨hl, hr, -, -⟩
    refine ⟨table J.pairing (J.item attr x) (cellsOf J.leftDims mode c.2.leftChunk)
      (cellsOf J.rightDims mode c.2.rightChunk), _, ?_, chunkIterator_serves (length_cellsOf hl)
      (length_cellsOf hr) sorted_cellsOf sorted_cellsOf, ?_, mem_cells_iff hattr hc⟩
    · rw [getConstIterator, if_pos hmode]
      rfl
    -- an output cell lies between the corners of its chunk
    intro e he
    rcases mem_cellPairs.mp he with ⟨l, hl, r, hr, -, rfl⟩
    have hl := of_decide_eq_true (mem_filter.mp hl).2
    have hr := of_decide_eq_true (mem_filter.mp hr).2
    exact ⟨rel_append hl.1 (unjoined_forall₂ _ hr.1), rel_append hl.2 (unjoined_forall₂ _ hr.2)⟩

/-- The cells of all chunks together are the relational join. -/
theorem joined_iff : (∃ chunkPos, J.JoinedIn attr false chunkPos pos v) ↔ J.Joined attr pos v := by
  constructor
  · rintro ⟨-, lp, rp, leftChunk, rightChunk, hlget, hrget, -, rfl, l, r, left, right, hlcell, hlin,
      hrcell, hrin, hmatch, hpos, hv⟩
    rw [inChunk_core_iff (J.left.isChunkPosition _ (mem_entries.mpr hlget))] at hlin
    rw [inChunk_core_iff (J.right.isChunkPosition _ (mem_entries.mpr hrget))] at hrin
    refine ⟨l, r, left, right, ?_, ?_, hmatch, hpos, hv⟩
    · rw [cell, hlin.2, hlget]
      exact hlcell
    · rw [cell, hrin.2, hrget]
      exact hrcell
  · rintro ⟨l, r, left, right, hl, hr, hmatch, rfl, rfl⟩
    rcases Option.bind_eq_some_iff.mp hl with ⟨leftChunk, hlget, hlcell⟩
    rcases Option.bind_eq_some_iff.mp hr with ⟨rightChunk, hrget, hrcell⟩
    have hlmem := mem_entries.mpr hlget
    have hrmem := mem_entries.mpr hrget
    have hlin := J.left.cells_in _ hlmem _ (mem_entries.mpr hlcell)
    have hrin := J.right.cells_in _ hrmem _ (mem_entries.mpr hrcell)
    have hllen := hlin.length_eq (length_chunkPosition hlget)
    have hrlen := hrin.length_eq (length_chunkPosition hrget)
    refine ⟨_, _, _, leftChunk, rightChunk, hlget, hrget, ?_, rfl, l, r, left, right, hlcell,
      hlin.core (J.left.isChunkPosition _ hlmem) rfl, hrcell,
      hrin.core (J.right.isChunkPosition _ hrmem) rfl, hmatch, rfl, rfl⟩
    rw [J.pairing.matches_iff (length_chunkPosition hlget) (length_chunkPosition hrget)]
    rw [J.pairing.matches_iff hllen hrlen] at hmatch
    exact matchPosition_chunks J.conformant hllen hrlen hmatch

theorem holds_iff (h : J.attributes[a]? = some attr) (pos : Coordinates) (v : V) :
    J.Holds a attr pos v ↔ J.Joined attr pos v := by
  rcases iterates h with ⟨x, hiter⟩
  rw [← joined_iff]
  constructor
  · rintro ⟨x', chunks, c, T, cells, hopen, hchunks, hc, hT, hcells, hmem⟩
    cases hiter.opens.symm.trans hopen
    cases hchunks.unique hiter.serves.visits
    rcases hiter.cells c hc { ignoreOverlaps := true, ignoreEmptyCells := true } rfl with
      ⟨T', cells', hT', hserves, -, hiff⟩
    cases hT.symm.trans hT'
    cases hcells.unique hserves.visits
    exact ⟨c.1, (hiff pos v).mp hmem⟩
  · rintro ⟨chunkPos, hjoined⟩
    have hpos : chunkPos ∈ (chunkPairs J.pairing (J.leftInput x) (J.rightInput x)).map
      Prod.fst := by
      rcases hjoined with ⟨lp, rp, leftChunk, rightChunk, hl, hr, hmatch, rfl, -⟩
      exact (hiter.positions _).mpr ⟨lp, rp, by rw [hl]; rfl, by rw [hr]; rfl, hmatch, rfl⟩
    rcases mem_map.mp hpos with ⟨c, hc, rfl⟩
    rcases hiter.cells c hc { ignoreOverlaps := true, ignoreEmptyCells := true } rfl with
      ⟨T, cells, hT, hserves, -, hiff⟩
    exact ⟨x, _, c, T, cells, hiter.opens, hiter.serves.visits, hc, hT, hserves.visits,
      (hiff pos v).mpr hjoined⟩

end Iterates

theorem cell_onInstance {ι : Type} [DecidableEq ι] {dims : List Dimension}
    {A : ChunkedArray dims R} {instanceOf : Coordinates → ι} {i : ι} {r : R} :
    (A.onInstance instanceOf i).cell pos = some r ↔
      A.cell pos = some r ∧ instanceOf (getChunkPositionFor (descs dims) pos) = i := by
  rw [cell, ChunkedArray.onInstance, get_filter, cell]
  by_cases hi : instanceOf (getChunkPositionFor (descs dims) pos) = i
  · simp [hi]
  · simp [hi]

/-- The cross join is the relational join, however the left array is spread. -/
theorem cross_join_exact {ι : Type} [DecidableEq ι] (J : CrossJoinArray V)
    (instanceOf : Coordinates → ι) : J.Exact instanceOf := by
  intro a attr hattr i
  have hlocal : (J.onInstance instanceOf i).attributes[a]? = some attr := hattr
  refine ⟨?_, ?_⟩
  · rcases iterates hlocal with ⟨x, hiter⟩
    exact ⟨x, _, hiter⟩
  · intro pos v
    rw [holds_iff hlocal]
    constructor
    · rintro ⟨l, r, left, right, hl, hr, hmatch, hpos, hv⟩
      rcases cell_onInstance.mp hl with ⟨hl, hi⟩
      exact ⟨l, r, left, right, hl, hi, hr, hmatch, hpos, hv⟩
    · rintro ⟨l, r, left, right, hl, hi, hr, hmatch, hpos, hv⟩
      exact ⟨l, r, left, right, cell_onInstance.mpr ⟨hl, hi⟩, hr, hmatch, hpos, hv⟩

end CrossJoinArray

end SciDB.Operators.CrossJoin
