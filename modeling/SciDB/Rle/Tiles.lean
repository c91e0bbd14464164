import SciDB.Rle.Reading

/-!
# Reading ahead in tiles

A tiled reader returns the cells of a chunk in tiles, lists of values with their
positions.  If the bitmap lies behind the payload and is large, the chunk stays
pinned and the payload iterator stays where the last tile has left it; otherwise
each tile starts with a new one.  A buffered reader returns cells one by one from
the last tile, while the tiled reader stands behind that tile.

The definitions follow `RLETileConstChunkIterator` of `src/array/MemChunk.cpp` and
`BufferedConstChunkIterator` of `include/array/TileIteratorAdaptors.h`.  Tiles are
lists; what `RLEEncoding` and `ArrayEncoding` do to store them is left out.

Main results:

- Theorem {lit}`fill_slow`: the cells that the loop over both iterators collects.
- Theorem {lit}`fill_fast`: where the payload iterator ends that loop too early.
- Theorem {lit}`findPosition_sound`: the search in a tile.
-/

namespace SciDB.Rle

open List Iterator ConstIterator OpenChunk

/-- `_tileData` and `_tileCoords` -/
structure Tile where
  data : List Value
  coords : List Nat
deriving DecidableEq, Repr

/-- `at`, for both parts of a tile. -/
def elementAt {α : Type} (l : List α) (i : Nat) : Except Fault α :=
  match l[i]? with
  | none => .error .outOfBounds
  | some x => .ok x

/-- `packedSize` of a payload. -/
def Payload.packedSize (p : Payload) : Nat :=
  48 + (p.nSegs + 1) * 12 + p.data.length

/-- `packedSize` of a bitmap. -/
def Bitmap.packedSize (bm : Bitmap) : Nat :=
  24 + bm.segs.length * 24

/-- The chunk stays pinned: its bitmap lies behind the payload and is not worth a copy. -/
def OpenChunk.isDataChunkPinned (c : OpenChunk) : Bool :=
  c.isEmptyBitmapAttached && !c.ignoreOverlaps &&
    !decide (2 * c.storedBitmap.packedSize ≤ c.payload.packedSize)

/-- `RLEEncoding::initialize`: the values of the payload from an offset on. -/
def tileOf (p : Payload) (off nElems : Nat) : Except Fault (List Value) := do
  let count ← p.count
  (List.range' off (min nElems (count - off))).mapM fun (pos : Nat) => do
    match ← p.getValueByPosition pos with
    | none => .error (.assertion "position not in rlePayload")
    | some v => .ok v

/-! ## The tiled reader -/

/-- `RLETileConstChunkIterator`; no logical position for -1. -/
structure TileIterator where
  hasCurrent : Bool
  emptyBitmapIterator : CellIterator
  payloadIterator : Iterator
  lPosition : Option Nat
  fastTileInitialize : Bool
  isDataChunkPinned : Bool
deriving DecidableEq, Repr

/-- `alignIterators` -/
def alignIterators (c : OpenChunk) (ebi : CellIterator) (pi : Iterator) : Except Fault
    Iterator := do
  let pPosition ← ebi.getPPos c.emptyBitmap
  require (¬ pi.atEnd c.payload) (.assertion "!end()") do
    if pi.currPpos ≠ pPosition then
      let pi ← pi.setPosition c.payload pPosition
      require (¬ pi.atEnd c.payload) (.operationFailed "setPosition") <| .ok pi
    else
      return pi

/-- The loop of `getDataInternal`, for at most `n` cells: the final iterators, the
values and the positions.  Values are read unless the tile has them already. -/
def fill (c : OpenChunk) (fast : Bool) : (n : Nat) → CellIterator → Iterator →
    Except Fault (CellIterator × Iterator × List Value × List Nat)
  | 0, ebi, pi => .ok (ebi, pi, [], [])
  | n + 1, ebi, pi =>
    if ¬ pi.atEnd c.payload ∧ ¬ ebi.atEnd c.emptyBitmap then do
      let pi ← (if fast then .ok pi else alignIterators c ebi pi)
      let data ← (if fast then .ok [] else List.singleton <$> pi.getItem c.payload)
      let lPos ← ebi.getLPos c.emptyBitmap
      let pi ← pi.next c.payload
      let ebi ← ebi.next c.emptyBitmap
      let (ebi, pi, values, coords) ← fill c fast n ebi pi
      return (ebi, pi, data ++ values, lPos :: coords)
    else .ok (ebi, pi, [], [])

namespace TileIterator

/-- `_lPosition = _emptyBitmapIterator.getLPos()` if there is a current cell, else -1. -/
def setLPosition (c : OpenChunk) (it : TileIterator) : Except Fault TileIterator :=
  if it.hasCurrent then do
    let lPos ← it.emptyBitmapIterator.getLPos c.emptyBitmap
    return { it with lPosition := some lPos }
  else .ok { it with lPosition := none }

/-- `restart` -/
def restart (c : OpenChunk) (it : TileIterator) : Except Fault TileIterator := do
  let ebi ← it.emptyBitmapIterator.restart c.emptyBitmap
  setLPosition c
    { it with emptyBitmapIterator := ebi, hasCurrent := ¬ ebi.atEnd c.emptyBitmap }

/-- The constructor. -/
def start (c : OpenChunk) : Except Fault TileIterator := do
  let pi ← Iterator.start c.payload
  let count ← c.payload.count
  let ebmCount := c.emptyBitmap.nNonEmptyElements
  require (ebmCount ≤ count) (.assertion "_emptyBitmap->count() <= _payload.count()") <|
    let fast := ebmCount = count ∧ c.payload.kind ≠ .boolean ∧ c.payload.kind ≠ .varying
    restart c ⟨false, ⟨0, 0⟩, pi, none, fast, c.isDataChunkPinned⟩

/-- `getLogicalPosition` -/
def getLogicalPosition (c : OpenChunk) (it : TileIterator) : Except Fault Nat :=
  require it.hasCurrent .noCurrentElement <| it.emptyBitmapIterator.getLPos c.emptyBitmap

/-- `getPosition` -/
def getPosition (c : OpenChunk) (it : TileIterator) : Except Fault Nat := do
  let lPos ← it.emptyBitmapIterator.getLPos c.emptyBitmap
  require (some lPos = it.lPosition)
    (.assertion "_emptyBitmapIterator.getLPos() == _lPosition") <| it.getLogicalPosition c

/-- `operator++` -/
def next (c : OpenChunk) (it : TileIterator) : Except Fault TileIterator :=
  require it.hasCurrent .noCurrentElement do
    let lPos ← it.emptyBitmapIterator.getLPos c.emptyBitmap
    require (some lPos = it.lPosition)
      (.assertion "_emptyBitmapIterator.getLPos() == _lPosition") do
      let ebi ← it.emptyBitmapIterator.next c.emptyBitmap
      let it := { it with emptyBitmapIterator := ebi }
      if ebi.atEnd c.emptyBitmap then
        return { it with hasCurrent := false }
      else
        let lPos ← ebi.getLPos c.emptyBitmap
        return { it with lPosition := some lPos }

/-- `BaseTileChunkIterator::setPosition` -/
def baseSetPosition (c : OpenChunk) (it : TileIterator) (pos : Nat) :
    Except Fault (Bool × TileIterator) :=
  if ¬ c.contains pos then .ok (false, { it with hasCurrent := false })
  else do
    let (res, ebi) ← it.emptyBitmapIterator.setPosition c.emptyBitmap pos
    return (res, { it with emptyBitmapIterator := ebi, hasCurrent := res })

/-- `setPosition` -/
def setPosition (c : OpenChunk) (it : TileIterator) (pos : Nat) :
    Except Fault (Bool × TileIterator) := do
  let (res, it) ← it.baseSetPosition c pos
  if ¬ res then return (false, it)
  else
    let lPos ← it.emptyBitmapIterator.getLPos c.emptyBitmap
    return (true, { it with lPosition := some lPos })

/-- `prepare`: a pinned chunk keeps its payload iterator. -/
def prepare (c : OpenChunk) (it : TileIterator) : Except Fault TileIterator :=
  if it.isDataChunkPinned then .ok it
  else do
    let pi ← Iterator.start c.payload
    return { it with payloadIterator := pi }

/-- The values of a tile that is taken from the payload at once. -/
def fastData (c : OpenChunk) (it : TileIterator) (maxValues : Nat) : Except Fault (List Value) :=
  if it.fastTileInitialize then do
    let pPosition ← it.emptyBitmapIterator.getPPos c.emptyBitmap
    let data ← tileOf c.payload pPosition maxValues
    require (0 < data.length) (.assertion "dataTile->size()>0") <| .ok data
  else .ok []

/-- The end of `getDataInternal`: stand at the cell behind the tile. -/
def finishTile (c : OpenChunk) (it : TileIterator) (logicalOffset : Nat) (tile : Tile) :
    Except Fault (TileIterator × Option Tile) :=
  require (tile.data.length = tile.coords.length)
      (.assertion "dataTile->size() == coordTile->size()") do
    if ¬ it.emptyBitmapIterator.atEnd c.emptyBitmap then
      let lPos ← it.emptyBitmapIterator.getLPos c.emptyBitmap
      require (lPos > logicalOffset) (.assertion "_lPosition > logicalOffset") <|
        .ok ({ it with lPosition := some lPos, hasCurrent := true }, some tile)
    else
      return ({ it with lPosition := none, hasCurrent := false }, some tile)

/-- `getDataInternal` with positions; no tile if the offset is not found. -/
def getData (c : OpenChunk) (it : TileIterator) (logicalOffset maxValues : Nat) :
    Except Fault (TileIterator × Option Tile) := do
  let it ← it.prepare c
  let (found, it) ← (if it.emptyBitmapIterator.atEnd c.emptyBitmap ∨
      logicalOffset ≠ it.emptyBitmapIterator.currLPos then it.baseSetPosition c logicalOffset
    else .ok (true, it))
  if ¬ found then return ({ it with lPosition := none }, none)
  else
    let fastData ← it.fastData c maxValues
    let (ebi, pi, slowData, coords) ←
      fill c it.fastTileInitialize maxValues it.emptyBitmapIterator it.payloadIterator
    finishTile c { it with emptyBitmapIterator := ebi, payloadIterator := pi } logicalOffset
      ⟨fastData ++ slowData, coords⟩

end TileIterator

/-! ## The buffered reader -/

/-- The binary search of `findPosition`. -/
def search (coords : List Nat) (pos : Nat) : (fuel low high : Nat) → Except Fault (Option Nat)
  | 0, low, high => if low ≤ high then .error .endless else .ok none
  | fuel + 1, low, high =>
    if low ≤ high then do
      let mid := (low + high) / 2
      let curr ← elementAt coords mid
      if pos = curr then return some mid
      else if pos < curr then
        require (mid > 0) (.assertion "mid>0") <| search coords pos fuel low (mid - 1)
      else search coords pos fuel (mid + 1) high
    else .ok none

/-- `findPosition`; `index` is the hint. -/
def findPosition (coords : List Nat) (pos index : Nat) : Except Fault (Option Nat) :=
  if coords.length = 0 then .ok none
  else do
    let high := coords.length - 1
    let hint := index % high + 1
    -- without a second element there is no hint
    let atHint ← (if high > 0 then do return (← elementAt coords hint) == pos else .ok false)
    if atHint then return some hint
    else
      let right ← elementAt coords high
      if right = pos then return some high
      else if pos > right ∨ high = 0 then return none
      else
        let left ← elementAt coords 0
        if left = pos then return some 0
        else if pos < left then return none
        else search coords pos coords.length 1 (high - 1)

/-- `BufferedConstChunkIterator`; no position in the tile for -1. -/
structure BufferedIterator where
  tiled : TileIterator
  tile : Option Tile
  currLPosInTile : Option Nat
  currTileIndex : Nat
deriving DecidableEq, Repr

/-- `_tileSize`, from the configured size or the default. -/
def tileSize (tsize : Int) : Nat :=
  if tsize ≤ 0 then 10000 else tsize.toNat

namespace BufferedIterator

/-- The constructor, over a new tiled reader. -/
def start (c : OpenChunk) : Except Fault BufferedIterator := do
  let tiled ← TileIterator.start c
  return ⟨tiled, none, none, 0⟩

variable (it : BufferedIterator)

/-- `clearCurrentLPosInTile`; the tile stays. -/
def clearCurrentLPosInTile : BufferedIterator :=
  { it with currLPosInTile := none, currTileIndex := 0 }

/-- `end` -/
def atEnd : Bool :=
  match it.currLPosInTile with
  | none => !it.tiled.hasCurrent
  | some _ => false

/-- `_tileCoords` and `_tileData`, once they have been asserted. -/
def getTile : Except Fault Tile :=
  match it.tile with
  | none => .error (.assertion "_tileCoords")
  | some t => .ok t

/-- `getPosition` -/
def getPosition (c : OpenChunk) (it : BufferedIterator) : Except Fault Nat :=
  match it.currLPosInTile with
  | none => it.tiled.getPosition c
  | some lPos => do
      let _ ← it.getTile
      return lPos

/-- `restart` -/
def restart (c : OpenChunk) (it : BufferedIterator) : Except Fault BufferedIterator := do
  let tiled ← it.tiled.restart c
  return { it.clearCurrentLPosInTile with tiled := tiled }

/-- `setPosition` -/
def setPosition (c : OpenChunk) (it : BufferedIterator) (pos : Nat) :
    Except Fault (Bool × BufferedIterator) := do
  let (res, tiled) ← it.tiled.setPosition c pos
  return (res, { it.clearCurrentLPosInTile with tiled := tiled })

/-- `operator++` -/
def next (c : OpenChunk) (it : BufferedIterator) : Except Fault BufferedIterator :=
  match it.currLPosInTile with
  | none => do
      let tiled ← it.tiled.next c
      return { it with tiled := tiled }
  | some lPos => do
      let t ← it.getTile
      require (it.currTileIndex < t.coords.length)
          (.assertion "_currTileIndex < _tileCoords->size()") do
        if it.currTileIndex + 1 ≥ t.coords.length then
          return it.clearCurrentLPosInTile
        else
          let newPos ← elementAt t.coords (it.currTileIndex + 1)
          require (newPos > lPos) (.assertion "newPos.get<position_t > () > _currLPosInTile") <|
            .ok { it with currLPosInTile := some newPos, currTileIndex := it.currTileIndex + 1 }

/-- The index of a position in the last tile. -/
def findInTile (lPos : Nat) : Except Fault (Option Nat) :=
  match it.tile with
  | none => .ok none
  | some t => findPosition t.coords lPos 0

/-- Find the current cell in the tile, or get a new tile: the reader and the index. -/
def locate (c : OpenChunk) (tileSize : Nat) (it : BufferedIterator) (lPos : Nat) :
    Except Fault (BufferedIterator × Nat) := do
  match ← it.findInTile lPos with
  | none =>
    let (tiled, tile) ← it.tiled.getData c lPos tileSize
    require (tiled.lPosition ≠ some lPos) (.assertion "nextTilePos!=lPos") <|
      .ok ({ it with tiled := tiled, tile := tile <|> it.tile }, 0)
  | some index =>
    -- the tiled reader goes to the cell behind the tile
    let t ← it.getTile
    let lastTilePos ← elementAt t.coords (t.coords.length - 1)
    let (rc, tiled) ← it.tiled.setPosition c lastTilePos
    require rc (.assertion "rc") do
      let tiled ← tiled.next c
      return ({ it with tiled := tiled }, index)

/-- `getItem` -/
def getItem (c : OpenChunk) (tileSize : Nat) (it : BufferedIterator) :
    Except Fault (Value × BufferedIterator) :=
  match it.currLPosInTile with
  | none => do
      let lPos ← it.tiled.getLogicalPosition c
      let (it, index) ← it.locate c tileSize lPos
      let t ← it.getTile
      let newPos ← elementAt t.coords index
      require (newPos ≥ lPos) (.assertion "_currLPosInTile>=lPos") do
        let value ← elementAt t.data index
        return (value, { it with currLPosInTile := some newPos, currTileIndex := index })
  | some _ => do
      let t ← it.getTile
      require (it.currTileIndex < t.coords.length)
          (.assertion "_currTileIndex < _tileCoords->size()") do
        let value ← elementAt t.data it.currTileIndex
        return (value, it)

end BufferedIterator

/-! ## Cells in tiles -/

/-- The positions of `m` visible cells from the `k`-th on. -/
def OpenChunk.coordsFrom (c : OpenChunk) (k m : Nat) : List Nat :=
  ((c.visible.drop k).take m).map Prod.fst

/-- The values of `m` visible cells from the `k`-th on. -/
def OpenChunk.valuesFrom (c : OpenChunk) (cells : List Value) (k m : Nat) : List Value :=
  ((c.visible.drop k).take m).filterMap fun e => cells[e.2]?

namespace OpenChunk

variable {c : OpenChunk} {values : List Datum} {cells : List Value} {k m : Nat}

theorem coordsFrom_end (h : c.visible.length ≤ k) : c.coordsFrom k m = [] := by
  rw [coordsFrom, drop_eq_nil_of_le h]
  simp

theorem valuesFrom_end (h : c.visible.length ≤ k) : c.valuesFrom cells k m = [] := by
  rw [valuesFrom, drop_eq_nil_of_le h]
  simp

variable {e : Nat × Nat} {i : Nat}

theorem drop_visible (he : c.visible[k]? = some e) :
    c.visible.drop k = e :: c.visible.drop (k + 1) := by
  rcases List.getElem?_eq_some_iff.mp he with ⟨hk, rfl⟩
  exact List.drop_eq_getElem_cons hk

theorem coordsFrom_succ (he : c.visible[k]? = some e) :
    c.coordsFrom k (m + 1) = e.1 :: c.coordsFrom (k + 1) m := by
  rw [coordsFrom, drop_visible he]
  rfl

theorem valuesFrom_succ (he : c.visible[k]? = some e) {v : Value} (hv : cells[e.2]? = some v) :
    c.valuesFrom cells k (m + 1) = v :: c.valuesFrom cells (k + 1) m := by
  rw [valuesFrom, drop_visible he, take_succ_cons, filterMap_cons, hv]
  rfl

theorem length_coordsFrom : (c.coordsFrom k m).length = min m (c.visible.length - k) := by
  rw [coordsFrom, length_map, length_take, length_drop]

theorem getElem?_coordsFrom (hi : i < m) :
    (c.coordsFrom k m)[i]? = (c.visible[k + i]?).map Prod.fst := by
  rw [coordsFrom, getElem?_map, getElem?_take_of_lt hi, getElem?_drop]

variable (h : c.Holding values cells)

include h

theorem Holding.valuesFrom_eq : c.valuesFrom cells k m =
    ((c.visible.drop k).take m).map fun e => (cells[e.2]?).getD (.null 0) := by
  rw [← filterMap_eq_map]
  apply filterMap_congr
  intro e he
  have hmem : e ∈ c.visible := mem_of_mem_drop (mem_of_mem_take he)
  rw [Function.comp_apply, getElem?_eq_getElem (h.lt_cells hmem)]
  rfl

/-- A tile has a value for each position. -/
theorem Holding.getElem?_valuesFrom (hi : i < m) (he : c.visible[k + i]? = some e) :
    (c.valuesFrom cells k m)[i]? = cells[e.2]? := by
  rcases h.value he with ⟨v, hv⟩
  rw [h.valuesFrom_eq, getElem?_map, getElem?_take_of_lt hi, getElem?_drop, he, Option.map_some,
    hv, Option.getD_some]

theorem Holding.length_valuesFrom :
    (c.valuesFrom cells k m).length = (c.coordsFrom k m).length := by
  rw [h.valuesFrom_eq, coordsFrom, length_map, length_map]

/-- The positions in a tile increase. -/
theorem Holding.pairwise_coordsFrom : (c.coordsFrom k m).Pairwise (· < ·) := by
  rw [coordsFrom, pairwise_map]
  exact List.Pairwise.sublist ((take_sublist _ _).trans (drop_sublist _ _)) h.increasing.sorted

/-- Later cells have later positions. -/
theorem Holding.lt_of_lt {j : Nat} {f : Nat × Nat} (hij : i < j) (hi : c.visible[i]? = some e)
    (hj : c.visible[j]? = some f) : e.1 < f.1 ∧ e.2 < f.2 := by
  rcases List.getElem?_eq_some_iff.mp hi with ⟨hi', rfl⟩
  rcases List.getElem?_eq_some_iff.mp hj with ⟨hj', rfl⟩
  exact pairwise_iff_getElem.mp h.increasing.pairwise i j hi' hj' hij

/-- If every value is visible, the cells have the physical positions 0, 1, 2 and so on. -/
theorem Holding.snd_eq (hall : c.visible.length = cells.length) (he : c.visible[k]? = some e) :
    e.2 = k := by
  have heq := h.visible_spec.2.1.eq_of_length_le (h.few.trans hall.ge)
  have hsnd := congrArg (·[k]?) h.bitmap.dense.map_snd
  rw [← heq] at hsnd
  rw [getElem?_map, he, getElem?_range' (List.getElem?_eq_some_iff.mp he).1] at hsnd
  simpa using hsnd

end OpenChunk

theorem elementAt_eq {α : Type} {l : List α} {i : Nat} {x : α} (h : l[i]? = some x) :
    elementAt l i = .ok x := by
  rw [elementAt, h]

/-! ## The loop over both iterators -/

section

variable {c : OpenChunk} {values : List Datum} {cells : List Value} {ebi : CellIterator}
  {pi : Iterator} {k q : Nat}

variable {p : Payload}

theorem Iterator.At.atEnd (hp : Holds p values cells) (h : pi.At p cells q)
    (hq : q = cells.length) : pi.atEnd p := by
  rcases h with ⟨s, s', hin, _⟩ | ⟨hend, _⟩
  · have := (hp.pPosition_bounds hin.seg_succ).2
    have := hin.lt_succ
    omega
  · exact hend

variable (h : c.Holding values cells)

include h

theorem alignIterators_at (hebi : ebi.At c.emptyBitmap k) {e : Nat × Nat}
    (he : c.visible[k]? = some e) (hpi : pi.At c.payload cells q) (hq : q < cells.length) :
    ∃ pi', alignIterators c ebi pi = .ok pi' ∧ pi'.At c.payload cells e.2 := by
  have hlt := h.lt_cells (mem_of_getElem? he)
  rw [alignIterators, (hebi.positions he).2]
  simp only [bind, Except.bind, require_pos (hpi.not_atEnd hq)]
  by_cases hmove : pi.currPpos ≠ (e.2 : Int)
  · rcases setPosition_at h.payload pi hlt.le with ⟨pi', hpi', hat⟩
    simp only [if_pos hmove, hpi', require_pos (hat.not_atEnd hlt)]
    exact ⟨pi', rfl, hat⟩
  · rw [if_neg hmove]
    exact ⟨pi, rfl, hpi.of_currPpos (hpi.not_atEnd hq) (not_not.mp hmove)⟩

/-- The cells that the loop collects when it reads values. -/
theorem fill_slow (n : Nat) (hebi : ebi.At c.emptyBitmap k) (hpi : pi.At c.payload cells q)
    (hready : k < c.visible.length → q < cells.length) :
    ∃ ebi' pi' q', fill c false n ebi pi =
        .ok (ebi', pi', c.valuesFrom cells k n, c.coordsFrom k n) ∧
      ebi'.At c.emptyBitmap (min (k + n) c.visible.length) ∧ pi'.At c.payload cells q' ∧
      (0 < n → k < c.visible.length →
        ∃ e, c.visible[min (k + n) c.visible.length - 1]? = some e ∧ q' = e.2 + 1) ∧
      (n = 0 ∨ c.visible.length ≤ k → q' = q) := by
  have hle : k ≤ c.visible.length := hebi.le
  induction n generalizing ebi pi k q with
  | zero =>
    refine ⟨ebi, pi, q, ?_, ?_, hpi, fun h0 => absurd h0 (lt_irrefl 0), fun _ => rfl⟩
    · simp [fill, valuesFrom, coordsFrom]
    · rw [Nat.add_zero, min_eq_left hle]
      exact hebi
  | succ n ih =>
    rw [fill]
    by_cases hk : k < c.visible.length
    · rcases getElem?_visible hk with ⟨e, he⟩
      rcases h.value he with ⟨v, hv⟩
      have hlt := h.lt_cells (mem_of_getElem? he)
      have hend : ¬ ebi.atEnd c.emptyBitmap := fun hend => hk.ne (hebi.atEnd_iff.mp hend)
      rcases alignIterators_at h hebi he hpi (hready hk) with ⟨pi₁, hpi₁, hat₁⟩
      rcases next_at h.payload hat₁ hlt with ⟨pi₂, hpi₂, hat₂⟩
      rcases CellIterator.next_at h.increasing hebi hk with ⟨ebi₂, hebi₂, hat₃⟩
      have hready' : k + 1 < c.visible.length → e.2 + 1 < cells.length := by
        intro hk'
        rcases getElem?_visible hk' with ⟨f, hf⟩
        have := (h.lt_of_lt (Nat.lt_succ_self k) he hf).2
        have := h.lt_cells (mem_of_getElem? hf)
        omega
      rcases ih hat₃ hat₂ hready' hat₃.le with
        ⟨ebi', pi', q', hfill, hebi', hpi', hlast, hstay⟩
      have hmin : min (k + 1 + n) c.visible.length = min (k + (n + 1)) c.visible.length := by
        omega
      refine ⟨ebi', pi', q', ?_, hmin ▸ hebi', hpi', ?_, by omega⟩
      · rw [if_pos ⟨hpi.not_atEnd (hready hk), hend⟩, valuesFrom_succ he hv, coordsFrom_succ he]
        simp only [Bool.false_eq_true, if_false, hpi₁, bind, Except.bind,
          getItem_eq h.payload hat₁ hv, (hebi.positions he).1, hpi₂, hebi₂, hfill]
        rfl
      · intro _ _
        by_cases hmore : 0 < n ∧ k + 1 < c.visible.length
        · rw [← hmin]
          exact hlast hmore.1 hmore.2
        · -- this was the last cell: the loop ends at once
          rw [show min (k + (n + 1)) c.visible.length - 1 = k by omega]
          exact ⟨e, he, hstay (by omega)⟩
    · have hend : ebi.atEnd c.emptyBitmap :=
        hebi.atEnd_iff.mpr (le_antisymm hle (Nat.not_lt.mp hk))
      rw [if_neg (by simp [hend]), valuesFrom_end (Nat.not_lt.mp hk),
        coordsFrom_end (Nat.not_lt.mp hk)]
      refine ⟨ebi, pi, q, rfl, ?_, hpi, fun _ hk' => absurd hk' hk, fun _ => rfl⟩
      rw [min_eq_right (by omega), le_antisymm (Nat.not_lt.mp hk) hle]
      exact hebi

/-- Without values to read, the loop also ends where the payload iterator ends. -/
theorem fill_fast (n : Nat) (hebi : ebi.At c.emptyBitmap k) (hpi : pi.At c.payload cells q)
    (hq : q ≤ cells.length) :
    ∃ ebi' pi', fill c true n ebi pi =
        .ok (ebi', pi', [], c.coordsFrom k (min n (cells.length - q))) ∧
      ebi'.At c.emptyBitmap (k + min (min n (cells.length - q)) (c.visible.length - k)) ∧
      pi'.At c.payload cells (q + min (min n (cells.length - q)) (c.visible.length - k)) := by
  have hle : k ≤ c.visible.length := hebi.le
  induction n generalizing ebi pi k q with
  | zero =>
    exact ⟨ebi, pi, rfl, hebi, hpi⟩
  | succ n ih =>
    rw [fill]
    by_cases hgo : q < cells.length ∧ k < c.visible.length
    · rcases getElem?_visible hgo.2 with ⟨e, he⟩
      have hend : ¬ ebi.atEnd c.emptyBitmap := fun hend => hgo.2.ne (hebi.atEnd_iff.mp hend)
      rcases next_at h.payload hpi hgo.1 with ⟨pi₂, hpi₂, hat₂⟩
      rcases CellIterator.next_at h.increasing hebi hgo.2 with ⟨ebi₂, hebi₂, hat₃⟩
      rcases ih hat₃ hat₂ hgo.1 hat₃.le with ⟨ebi', pi', hfill, hebi', hpi'⟩
      have hmin : min (n + 1) (cells.length - q) = min n (cells.length - (q + 1)) + 1 := by omega
      have hsteps : min (min (n + 1) (cells.length - q)) (c.visible.length - k) =
          min (min n (cells.length - (q + 1))) (c.visible.length - (k + 1)) + 1 := by omega
      refine ⟨ebi', pi', ?_, ?_, ?_⟩
      · rw [if_pos ⟨hpi.not_atEnd hgo.1, hend⟩, hmin, coordsFrom_succ he]
        simp only [if_true, bind, Except.bind, (hebi.positions he).1, hpi₂, hebi₂, hfill]
        rfl
      · rw [hsteps, ← Nat.add_assoc, Nat.add_right_comm]
        exact hebi'
      · rw [hsteps, ← Nat.add_assoc, Nat.add_right_comm]
        exact hpi'
    · have hstop : ¬ (¬ pi.atEnd c.payload ∧ ¬ ebi.atEnd c.emptyBitmap) := by
        intro hstop
        apply hgo
        constructor
        · by_contra hqe
          exact hstop.1 (hpi.atEnd h.payload (by omega))
        · by_contra hke
          exact hstop.2 (hebi.atEnd_iff.mpr (le_antisymm hle (Nat.not_lt.mp hke)))
      have hzero : min (min (n + 1) (cells.length - q)) (c.visible.length - k) = 0 := by omega
      refine ⟨ebi, pi, ?_, by rw [hzero]; exact hebi, by rw [hzero]; exact hpi⟩
      rw [if_neg hstop]
      have hnil : c.coordsFrom k (min (n + 1) (cells.length - q)) = [] := by
        apply eq_nil_of_length_eq_zero
        rw [length_coordsFrom]
        exact hzero
      rw [hnil]

end

/-- The values of a payload from an offset on. -/
theorem tileOf_eq {p : Payload} {values : List Datum} {cells : List Value}
    (h : Holds p values cells) (off nElems : Nat) :
    tileOf p off nElems = .ok ((cells.drop off).take nElems) := by
  have hmap : ∀ m off : Nat, off + m ≤ cells.length →
      ((List.range' off m).mapM fun (pos : Nat) => do
        match ← p.getValueByPosition pos with
        | none => .error (.assertion "position not in rlePayload")
        | some v => .ok v) = .ok ((cells.drop off).take m) := by
    intro m
    induction m with
    | zero =>
      intro off _
      simp
      rfl
    | succ m ih =>
      intro off hle
      have hlt : off < cells.length := by omega
      have hget : p.getValueByPosition off = .ok (some (cells.get ⟨off, hlt⟩)) :=
        h.getValueByPosition (getElem?_eq_getElem hlt)
      rw [List.range'_succ, mapM_cons, hget, drop_eq_getElem_cons hlt, take_succ_cons]
      simp only [bind, Except.bind] at ih ⊢
      rw [ih (off + 1) (by omega)]
      rfl
  rw [tileOf, h.count]
  show List.mapM _ _ = _
  by_cases hoff : off ≤ cells.length
  · rw [hmap _ off (by omega)]
    congr 1
    rw [take_eq_take_iff, length_drop]
    omega
  · rw [Nat.sub_eq_zero_of_le (by omega), Nat.min_zero, drop_eq_nil_of_le (by omega), take_nil]
    rfl

/-! ## Searching a tile -/

section

variable {coords : List Nat} {pos : Nat}

variable (hsorted : coords.Pairwise (· < ·))

include hsorted

theorem lt_iff_of_getElem? {i j x y : Nat} (hi : coords[i]? = some x) (hj : coords[j]? = some y) :
    x < y ↔ i < j := by
  rcases List.getElem?_eq_some_iff.mp hi with ⟨hi', rfl⟩
  rcases List.getElem?_eq_some_iff.mp hj with ⟨hj', rfl⟩
  have hmono := pairwise_iff_getElem.mp hsorted
  rcases Nat.lt_trichotomy i j with h | rfl | h
  · exact iff_of_true (hmono i j hi' hj' h) h
  · simp
  · exact iff_of_false (hmono j i hj' hi' h).asymm h.asymm

/-- The bisection finds the position, if it is between the bounds. -/
theorem search_sound (pos : Nat) {fuel low high : Nat} (hlow : 0 < low)
    (hhigh : high < coords.length) (hfuel : high + 1 - low ≤ fuel) :
    ∃ r, search coords pos fuel low high = .ok r ∧ (∀ i, r = some i → coords[i]? = some pos) ∧
      (r = none → ∀ i, coords[i]? = some pos → i < low ∨ high < i) := by
  induction fuel generalizing low high with
  | zero => exact ⟨none, by rw [search, if_neg (by omega)], by simp, fun _ i _ => by omega⟩
  | succ fuel ih =>
    rw [search]
    by_cases hle : low ≤ high
    · obtain ⟨curr, hcurr⟩ : ∃ curr, coords[(low + high) / 2]? = some curr :=
        ⟨_, getElem?_eq_getElem (by omega)⟩
      have hless := fun i hi => @lt_iff_of_getElem? coords hsorted _ i curr pos hcurr hi
      have hmore := fun i hi => @lt_iff_of_getElem? coords hsorted i _ pos curr hi hcurr
      rw [if_pos hle]
      simp only [elementAt_eq hcurr, bind, Except.bind]
      by_cases heq : pos = curr
      · rw [if_pos heq]
        exact ⟨_, rfl, fun i hi => Option.some.inj hi ▸ heq ▸ hcurr, by simp⟩
      rw [if_neg heq]
      by_cases hlt : pos < curr
      · rw [if_pos hlt, require_pos (by omega)]
        rcases ih hlow (show (low + high) / 2 - 1 < _ by omega) (by omega) with
          ⟨r, hr, hsome, hnone⟩
        refine ⟨r, hr, hsome, fun h i hi => ?_⟩
        have := hnone h i hi
        have := hmore i hi
        omega
      · rw [if_neg hlt]
        rcases ih (show 0 < (low + high) / 2 + 1 by omega) hhigh (by omega) with
          ⟨r, hr, hsome, hnone⟩
        refine ⟨r, hr, hsome, fun h i hi => ?_⟩
        have := hnone h i hi
        have := hless i hi
        omega
    · exact ⟨none, if_neg hle, by simp, fun _ i _ => by omega⟩

/-- The search answers with the index of the position. -/
theorem findPosition_sound (index : Nat) :
    ∃ r, findPosition coords pos index = .ok r ∧ (∀ i, r = some i → coords[i]? = some pos) ∧
      (r = none → pos ∉ coords) := by
  unfold findPosition
  by_cases hzero : coords.length = 0
  · refine ⟨none, if_pos hzero, by simp, fun _ => ?_⟩
    rw [List.length_eq_zero_iff.mp hzero]
    exact List.not_mem_nil
  obtain ⟨right, hright⟩ : ∃ x, coords[coords.length - 1]? = some x :=
    ⟨_, List.getElem?_eq_getElem (by omega)⟩
  obtain ⟨left, hleft⟩ : ∃ x, coords[0]? = some x := ⟨_, List.getElem?_eq_getElem (by omega)⟩
  -- whether the hint is right does not matter for the rest
  obtain ⟨b, hb, hhint⟩ : ∃ b, (if coords.length - 1 > 0 then do
        return (← elementAt coords (index % (coords.length - 1) + 1)) == pos
      else Except.ok false) = .ok b ∧
      (b = true → coords[index % (coords.length - 1) + 1]? = some pos) := by
    by_cases hhigh : coords.length - 1 > 0
    · have hlt := Nat.mod_lt index hhigh
      obtain ⟨x, hx⟩ : ∃ x, coords[index % (coords.length - 1) + 1]? = some x :=
        ⟨_, List.getElem?_eq_getElem (by omega)⟩
      refine ⟨x == pos, ?_, ?_⟩
      · rw [if_pos hhigh, elementAt_eq hx]
        rfl
      · intro heq
        rw [hx, beq_iff_eq.mp heq]
    · exact ⟨false, if_neg hhigh, by simp⟩
  have hbounds : ∀ i x : Nat, coords[i]? = some x → x ≤ right ∧ left ≤ x := by
    intro i x hi
    have hlt := (List.getElem?_eq_some_iff.mp hi).1
    have hge := lt_iff_of_getElem? hsorted hright hi
    have hle := lt_iff_of_getElem? hsorted hi hleft
    omega
  rw [if_neg hzero]
  dsimp only
  rw [hb]
  simp only [bind, Except.bind, elementAt_eq hright, elementAt_eq hleft]
  by_cases htrue : b = true
  · rw [if_pos htrue]
    exact ⟨_, rfl, fun i hi => Option.some.inj hi ▸ hhint htrue, by simp⟩
  rw [if_neg htrue]
  by_cases hr : right = pos
  · rw [if_pos hr]
    exact ⟨_, rfl, fun i hi => Option.some.inj hi ▸ hr ▸ hright, by simp⟩
  rw [if_neg hr]
  by_cases hout : pos > right ∨ coords.length - 1 = 0
  · rw [if_pos hout]
    refine ⟨none, rfl, by simp, fun _ hmem => ?_⟩
    rcases List.getElem?_of_mem hmem with ⟨i, hi⟩
    have hle := (hbounds i pos hi).1
    have hi' := (List.getElem?_eq_some_iff.mp hi).1
    rw [show i = coords.length - 1 by omega, hright] at hi
    exact hr (Option.some.inj hi)
  rw [if_neg hout]
  by_cases hl : left = pos
  · rw [if_pos hl]
    exact ⟨_, rfl, fun i hi => Option.some.inj hi ▸ hl ▸ hleft, by simp⟩
  rw [if_neg hl]
  by_cases hless : pos < left
  · rw [if_pos hless]
    refine ⟨none, rfl, by simp, fun _ hmem => ?_⟩
    rcases List.getElem?_of_mem hmem with ⟨i, hi⟩
    have := (hbounds i pos hi).2
    omega
  rw [if_neg hless]
  rcases search_sound hsorted pos Nat.one_pos (show coords.length - 1 - 1 < _ by omega)
    (show _ ≤ coords.length by omega) with ⟨r, hsearch, hsome, hnone⟩
  refine ⟨r, hsearch, hsome, fun h hmem => ?_⟩
  rcases List.getElem?_of_mem hmem with ⟨i, hi⟩
  have hi' := (List.getElem?_eq_some_iff.mp hi).1
  rcases hnone h i hi with hfirst | hlast
  · rw [show i = 0 by omega, hleft] at hi
    exact hl (Option.some.inj hi)
  · rw [show i = coords.length - 1 by omega, hright] at hi
    exact hr (Option.some.inj hi)

/-- A position in the tile is found. -/
theorem findPosition_some (index : Nat) {i : Nat} (hi : coords[i]? = some pos) :
    findPosition coords pos index = .ok (some i) := by
  rcases @findPosition_sound coords pos hsorted index with ⟨r, hr, hsome, hnone⟩
  cases r with
  | none => exact absurd (mem_of_getElem? hi) (hnone rfl)
  | some j =>
    have hlt := lt_iff_of_getElem? hsorted hi (hsome j rfl)
    have hgt := lt_iff_of_getElem? hsorted (hsome j rfl) hi
    rw [hr, show i = j by omega]

/-- Other positions are not found. -/
theorem findPosition_none (index : Nat) (hpos : pos ∉ coords) :
    findPosition coords pos index = .ok none := by
  rcases @findPosition_sound coords pos hsorted index with ⟨r, hr, hsome, _⟩
  cases r with
  | none => exact hr
  | some i => exact absurd (mem_of_getElem? (hsome i rfl)) hpos

end

end SciDB.Rle
