import SciDB.Rle.Tiles

/-!
# Buffered reading against plain reading

A user of a chunk calls `restart`, `setPosition`, `++` and `getItem` and looks at
`end` and at the position in between.  The buffered reader should show the same as
the plain one.  It does not when the chunk stays pinned: the payload iterator is
never moved back, and once it has run behind the last value the next tile that has
to be read comes out too short.

Main results:

- Theorem {lit}`BufferedIterator.step`: one call of the buffered reader.
- Theorem {lit}`bufferedRefines_iff`: when both readers show the same.
-/

namespace SciDB.Rle

open List ConstIterator OpenChunk

open ConstIterator (getElem?_visible)
open OpenChunk (cursor length_coordsFrom)

/-! ## Calls -/

/-- What the user of a chunk calls. -/
inductive Call where
  | restart
  | setPosition (pos : Nat)
  | next
  | getItem
deriving DecidableEq, Repr

/-- What a call returns. -/
inductive Answer where
  | done
  | found (res : Bool)
  | item (v : Value)
deriving DecidableEq, Repr

/-- One call of the plain reader. -/
def ConstIterator.call (c : OpenChunk) (it : ConstIterator) :
    Call → Except Fault (Answer × ConstIterator)
  | .restart => do
      let it ← it.restart c
      return (.done, it)
  | .setPosition pos => do
      let (res, it) ← it.setPosition c pos
      return (.found res, it)
  | .next => do
      let it ← it.next c
      return (.done, it)
  | .getItem => do
      let v ← it.getItem c
      return (.item v, it)

/-- One call of the buffered reader. -/
def BufferedIterator.call (c : OpenChunk) (tileSize : Nat) (it : BufferedIterator) :
    Call → Except Fault (Answer × BufferedIterator)
  | .restart => do
      let it ← it.restart c
      return (.done, it)
  | .setPosition pos => do
      let (res, it) ← it.setPosition c pos
      return (.found res, it)
  | .next => do
      let it ← it.next c
      return (.done, it)
  | .getItem => do
      let (v, it) ← it.getItem c tileSize
      return (.item v, it)

/-- The position that the plain reader shows, unless it is at the end. -/
def ConstIterator.look (c : OpenChunk) (it : ConstIterator) : Except Fault (Option Nat) :=
  if it.atEnd then .ok none else some <$> it.getPosition c

/-- The position that the buffered reader shows, unless it is at the end. -/
def BufferedIterator.look (c : OpenChunk) (it : BufferedIterator) : Except Fault (Option Nat) :=
  if it.atEnd then .ok none else some <$> it.getPosition c

/-- All that is seen of a reader: its answers and its positions. -/
def trace {σ : Type} (call : σ → Call → Except Fault (Answer × σ))
    (look : σ → Except Fault (Option Nat)) :
    σ → List Call → Except Fault (List (Answer × Option Nat))
  | s, [] => do
      let pos ← look s
      return [(.done, pos)]
  | s, x :: xs => do
      let pos ← look s
      let (a, s) ← call s x
      let views ← trace call look s xs
      return (a, pos) :: views

/-- `++` and `getItem` are called at cells only. -/
def Legal (c : OpenChunk) : ConstIterator → List Call → Prop
  | _, [] => True
  | it, x :: xs => (x = .next ∨ x = .getItem → it.atEnd = false) ∧
      ∀ a it', it.call c x = .ok (a, it') → Legal c it' xs

namespace TileIterator

variable {c : OpenChunk} {values : List Datum} {cells : List Value} {it : TileIterator} {k : Nat}

/-- The tiled reader stands at a cell, or at none. -/
inductive At (c : OpenChunk) (it : TileIterator) : Option Nat → Prop where
  | cell {k : Nat} {e : Nat × Nat} : it.hasCurrent = true →
      it.emptyBitmapIterator.At c.emptyBitmap k → c.visible[k]? = some e →
      it.lPosition = some e.1 → At c it (some k)
  | none : it.hasCurrent = false → At c it none

/-- What moving to another cell leaves as it is. -/
def frame (it : TileIterator) : Iterator × Bool × Bool :=
  (it.payloadIterator, it.fastTileInitialize, it.isDataChunkPinned)

variable {e : Nat × Nat} {q n : Nat}

theorem At.not_atEnd {ebi : CellIterator} (hat : ebi.At c.emptyBitmap k)
    (he : c.visible[k]? = some e) : ¬ ebi.atEnd c.emptyBitmap := fun hend =>
  (List.getElem?_eq_some_iff.mp he).1.ne (hat.atEnd_iff.mp hend)

section

variable (h : c.Holding values cells)

include h

theorem restart_at (it : TileIterator) :
    ∃ it', it.restart c = .ok it' ∧ it'.At c (c.cursor 0) ∧ it'.frame = it.frame := by
  rcases CellIterator.restart_at h.increasing it.emptyBitmapIterator with ⟨ebi, hebi, hat⟩
  rw [restart, hebi]
  simp only [bind, Except.bind]
  rcases cursor_cases hat with ⟨e, he, hend, hcur⟩ | ⟨hend, hcur⟩
  · rw [hcur, setLPosition]
    simp only [hend, (hat.positions he).1]
    exact ⟨_, rfl, .cell rfl hat he rfl, rfl⟩
  · rw [hcur]
    simp only [hend]
    exact ⟨_, rfl, .none rfl, rfl⟩

theorem start_at :
    ∃ it, start c = .ok it ∧ it.At c (c.cursor 0) ∧
      it.payloadIterator.At c.payload cells 0 ∧ it.isDataChunkPinned = c.isDataChunkPinned ∧
      (it.fastTileInitialize = true → c.visible.length = cells.length) := by
  rcases Iterator.start_at h.payload with ⟨pi, hpi, hat⟩
  have hcount : c.emptyBitmap.nNonEmptyElements = c.visible.length := h.visible_spec.1.count
  have hle : c.emptyBitmap.nNonEmptyElements ≤ cells.length := by
    rw [hcount]
    exact h.visible_spec.2.1.length_le.trans h.few
  rw [start, hpi]
  simp only [bind, Except.bind, h.payload.count, require_pos hle]
  rcases restart_at h ⟨false, ⟨0, 0⟩, pi, none, decide (c.emptyBitmap.nNonEmptyElements =
      cells.length ∧ c.payload.kind ≠ .boolean ∧ c.payload.kind ≠ .varying),
    c.isDataChunkPinned⟩ with ⟨it, hit, hcur, hframe⟩
  rw [frame, frame, Prod.mk.injEq, Prod.mk.injEq] at hframe
  rcases hframe with ⟨hpi', hfast, hpinned⟩
  refine ⟨it, hit, hcur, hpi' ▸ hat, hpinned, ?_⟩
  intro htrue
  rw [hfast, decide_eq_true_eq] at htrue
  exact hcount.symm.trans htrue.1

theorem next_at (hat : it.At c (some k)) :
    ∃ it', it.next c = .ok it' ∧ it'.At c (c.cursor (k + 1)) ∧ it'.frame = it.frame := by
  cases hat with
  | @cell _ e hcur hebi he hl =>
    have hk : k < c.visible.length := (List.getElem?_eq_some_iff.mp he).1
    rcases CellIterator.next_at h.increasing hebi hk with ⟨ebi, hnext, hat⟩
    rw [next, require_pos hcur, (hebi.positions he).1]
    simp only [bind, Except.bind, require_pos hl.symm, hnext]
    rcases cursor_cases hat with ⟨f, hf, hend, hcur'⟩ | ⟨hend, hcur'⟩
    · rw [hcur', if_neg hend]
      simp only [(hat.positions hf).1]
      exact ⟨_, rfl, .cell hcur hat hf rfl, rfl⟩
    · rw [hcur', if_pos hend]
      exact ⟨_, rfl, .none rfl, rfl⟩

theorem setPosition_at (it : TileIterator) (he : c.visible[k]? = some e) :
    ∃ it', it.setPosition c e.1 = .ok (true, it') ∧ it'.At c (some k) ∧ it'.frame = it.frame := by
  have hcontains := h.visible_spec.2.2 e (mem_of_getElem? he)
  rcases CellIterator.setPosition_at h.increasing it.emptyBitmapIterator he with ⟨ebi, hebi, hat⟩
  rw [setPosition, baseSetPosition, if_neg (not_not.mpr hcontains), hebi]
  simp only [bind, Except.bind, pure, Except.pure, (hat.positions he).1]
  exact ⟨_, rfl, .cell rfl hat he rfl, rfl⟩

theorem setPosition_none (it : TileIterator) {pos : Nat} (hnone : c.visible.lookup pos = none) :
    ∃ it', it.setPosition c pos = .ok (false, it') ∧ it'.At c none ∧ it'.frame = it.frame := by
  rw [setPosition, baseSetPosition]
  by_cases hcontains : c.contains pos = true
  · rcases CellIterator.setPosition_none h.increasing it.emptyBitmapIterator hnone with
      ⟨ebi, hebi, _⟩
    rw [if_neg (not_not.mpr hcontains), hebi]
    exact ⟨_, rfl, .none rfl, rfl⟩
  · rw [if_pos hcontains]
    exact ⟨_, rfl, .none rfl, rfl⟩

end

theorem At.bitmap (hat : it.At c (some k)) : it.emptyBitmapIterator.At c.emptyBitmap k := by
  cases hat with
  | cell _ hebi _ _ => exact hebi

theorem cursor_congr {i j : Nat} (h : i = j ∨ c.visible.length ≤ i ∧ c.visible.length ≤ j) :
    c.cursor i = c.cursor j := by
  unfold cursor
  split <;> split <;> simp only [Option.some.injEq, reduceCtorEq] <;> omega

theorem At.getLogicalPosition (hat : it.At c (some k)) (he : c.visible[k]? = some e) :
    it.getLogicalPosition c = .ok e.1 := by
  cases hat with
  | cell hcur hebi _ _ =>
    rw [TileIterator.getLogicalPosition, require_pos hcur]
    exact (hebi.positions he).1

theorem At.getPosition (hat : it.At c (some k)) (he : c.visible[k]? = some e) :
    it.getPosition c = .ok e.1 := by
  have hlogical := hat.getLogicalPosition he
  cases hat with
  | cell _ hebi he' hl =>
    rw [he, Option.some.injEq] at he'
    subst he'
    rw [TileIterator.getPosition, (hebi.positions he).1]
    simp only [bind, Except.bind, require_pos hl.symm]
    exact hlogical

/-- Where the payload iterator stands when a tile is read. -/
def ReadsFrom (c : OpenChunk) (cells : List Value) (it : TileIterator) (q : Nat) : Prop :=
  if it.isDataChunkPinned then it.payloadIterator.At c.payload cells q else q = 0

section

variable (h : c.Holding values cells)

include h

theorem prepare_at (hq : it.ReadsFrom c cells q) :
    ∃ pi, it.prepare c = .ok { it with payloadIterator := pi } ∧ pi.At c.payload cells q := by
  unfold ReadsFrom at hq
  unfold prepare
  split at hq
  · rename_i hpinned
    exact ⟨it.payloadIterator, if_pos hpinned, hq⟩
  · rename_i hpinned
    rcases Iterator.start_at h.payload with ⟨pi, hpi, hat⟩
    subst hq
    rw [if_neg hpinned, hpi]
    exact ⟨pi, rfl, hat⟩

/-- With every value visible, a tile is a part of the payload. -/
theorem valuesFrom_all (hall : c.visible.length = cells.length) (k n : Nat) :
    c.valuesFrom cells k n = (cells.drop k).take n := by
  rw [h.valuesFrom_eq, map_take, map_drop]
  congr 2
  apply ext_getElem?
  intro i
  rw [getElem?_map]
  cases he : c.visible[i]? with
  | none => rw [Option.map_none, getElem?_eq_none (hall ▸ getElem?_eq_none_iff.mp he)]
  | some e =>
    rcases h.value he with ⟨v, hv⟩
    rw [Option.map_some, hv, Option.getD_some, ← h.snd_eq hall he, hv]

theorem fastData_eq (hat : it.emptyBitmapIterator.At c.emptyBitmap k) (he : c.visible[k]? = some e)
    (hall : it.fastTileInitialize = true → c.visible.length = cells.length) (hn : 0 < n) :
    it.fastData c n = .ok (if it.fastTileInitialize then c.valuesFrom cells k n else []) := by
  unfold fastData
  by_cases hfast : it.fastTileInitialize = true
  · have hlen := hall hfast
    have hk : k < cells.length := hlen ▸ (List.getElem?_eq_some_iff.mp he).1
    have hpos : 0 < ((cells.drop k).take n).length := by
      rw [length_take, length_drop]
      omega
    rw [if_pos hfast, if_pos hfast, (hat.positions he).2, valuesFrom_all h hlen, h.snd_eq hlen he]
    simp only [bind, Except.bind, tileOf_eq h.payload, require_pos hpos]
  · rw [if_neg hfast, if_neg hfast]

/-- Up to the loop, reading a tile from the current cell. -/
theorem getData_eq (hat : it.At c (some k)) (he : c.visible[k]? = some e)
    (hq : it.ReadsFrom c cells q)
    (hall : it.fastTileInitialize = true → c.visible.length = cells.length) (hn : 0 < n) :
    ∃ pi, pi.At c.payload cells q ∧ it.getData c e.1 n = (do
      let (ebi, pi, slowData, coords) ← fill c it.fastTileInitialize n it.emptyBitmapIterator pi
      finishTile c { it with emptyBitmapIterator := ebi, payloadIterator := pi } e.1
        ⟨(if it.fastTileInitialize then c.valuesFrom cells k n else []) ++ slowData, coords⟩) := by
  rcases prepare_at h hq with ⟨pi, hpi, hpat⟩
  refine ⟨pi, hpat, ?_⟩
  cases hat with
  | cell hcur hebi _ _ =>
    have hend := At.not_atEnd hebi he
    have hlpos : it.emptyBitmapIterator.currLPos = e.1 := by
      have hget := (hebi.positions he).1
      rw [CellIterator.getLPos, require_pos hend] at hget
      exact Except.ok.inj hget
    have hfast : fastData c { it with payloadIterator := pi } n = _ :=
      fastData_eq h hebi he hall hn
    rw [getData, hpi]
    simp [bind, Except.bind, hlpos, hend, hfast]

/-- Behind a tile, at a later cell. -/
theorem finishTile_at {tile : Tile} (hlen : tile.data.length = tile.coords.length) {k' : Nat}
    (hkk' : k < k') (he : c.visible[k]? = some e)
    (hat : it.emptyBitmapIterator.At c.emptyBitmap k') :
    ∃ it', finishTile c it e.1 tile = .ok (it', some tile) ∧ it'.At c (c.cursor k') ∧
      it'.lPosition ≠ some e.1 ∧ it'.frame = it.frame := by
  rw [finishTile, require_pos hlen]
  rcases cursor_cases hat with ⟨f, hf, hend, hcur⟩ | ⟨hend, hcur⟩
  · have hlt := (h.lt_of_lt hkk' he hf).1
    rw [hcur, if_pos hend, (hat.positions hf).1]
    simp only [bind, Except.bind, require_pos hlt]
    exact ⟨_, rfl, .cell rfl hat hf rfl, fun heq => hlt.ne' (Option.some.inj heq), rfl⟩
  · rw [hcur, if_neg (not_not.mpr hend)]
    exact ⟨_, rfl, .none rfl, by simp, rfl⟩

end

/-- The payload iterator allows to read `n` cells from the `k`-th on. -/
def CanRead (c : OpenChunk) (cells : List Value) (it : TileIterator) (k n q : Nat) : Prop :=
  if it.fastTileInitialize then q + min n (c.visible.length - k) ≤ cells.length
  else q < cells.length

/-- Where the payload iterator is left behind a tile. -/
def LeftAt (c : OpenChunk) (cells : List Value) (it it' : TileIterator) (k n q q' : Nat) : Prop :=
  it'.payloadIterator.At c.payload cells q' ∧ it'.fastTileInitialize = it.fastTileInitialize ∧
    (it.fastTileInitialize = true → q' = q + min n (c.visible.length - k)) ∧
    (it.fastTileInitialize = false →
      ∃ f, c.visible[min (k + n) c.visible.length - 1]? = some f ∧ q' = f.2 + 1)

/-- The tile from the current cell on, and where the payload iterator is left. -/
theorem getData_at (h : c.Holding values cells) (hat : it.At c (some k))
    (he : c.visible[k]? = some e) (hq : it.ReadsFrom c cells q)
    (hall : it.fastTileInitialize = true → c.visible.length = cells.length) (hn : 0 < n)
    (hcan : it.CanRead c cells k n q) :
    ∃ it' q', it.getData c e.1 n = .ok (it', some ⟨c.valuesFrom cells k n, c.coordsFrom k n⟩) ∧
      it'.At c (c.cursor (k + n)) ∧ it'.lPosition ≠ some e.1 ∧
      it'.isDataChunkPinned = it.isDataChunkPinned ∧ it.LeftAt c cells it' k n q q' := by
  have hk : k < c.visible.length := (List.getElem?_eq_some_iff.mp he).1
  rcases getData_eq h hat he hq hall hn with ⟨pi, hpat, hdata⟩
  have hebi := hat.bitmap
  rw [hdata]
  unfold CanRead at hcan
  cases hfast : it.fastTileInitialize with
  | true =>
    rw [hfast, if_pos rfl] at hcan
    rcases fill_fast h n hebi hpat (by omega) with ⟨ebi', pi', hfill, hebi', hpi'⟩
    have hsteps : min (min n (cells.length - q)) (c.visible.length - k) =
        min n (c.visible.length - k) := by omega
    have hcoords : c.coordsFrom k (min n (cells.length - q)) = c.coordsFrom k n := by
      unfold OpenChunk.coordsFrom
      congr 1
      rw [take_eq_take_iff, length_drop]
      omega
    rw [hsteps] at hebi' hpi'
    rcases @finishTile_at c values cells { it with
        emptyBitmapIterator := ebi', payloadIterator := pi', fastTileInitialize := true } k e h
      ⟨c.valuesFrom cells k n, c.coordsFrom k n⟩ h.length_valuesFrom _
      (by omega) he hebi' with
      ⟨it', hit', hat', hl', hframe⟩
    rw [frame, Prod.mk.injEq, Prod.mk.injEq] at hframe
    refine ⟨it', _, ?_, ?_, hl', hframe.2.2, ?_, hframe.2.1.trans hfast.symm, fun _ => rfl, by
      simp [hfast]⟩
    · rw [hfill, hcoords]
      simp only [bind, Except.bind, append_nil]
      exact hit'
    · rw [cursor_congr (j := k + min n (c.visible.length - k)) (by omega)]
      exact hat'
    · rw [hframe.1]
      exact hpi'
  | false =>
    rw [hfast] at hcan
    rcases fill_slow h n hebi hpat (fun _ => hcan) with
      ⟨ebi', pi', q', hfill, hebi', hpi', hlast, -⟩
    rcases @finishTile_at c values cells { it with
        emptyBitmapIterator := ebi', payloadIterator := pi', fastTileInitialize := false } k e h
      ⟨c.valuesFrom cells k n, c.coordsFrom k n⟩ h.length_valuesFrom _
      (by omega) he hebi' with
      ⟨it', hit', hat', hl', hframe⟩
    rw [frame, Prod.mk.injEq, Prod.mk.injEq] at hframe
    refine ⟨it', q', ?_, ?_, hl', hframe.2.2, ?_, hframe.2.1.trans hfast.symm, by simp [hfast],
      fun _ => hlast hn hk⟩
    · rw [hfill]
      exact hit'
    · rw [cursor_congr (j := min (k + n) c.visible.length) (by omega)]
      exact hat'
    · rw [hframe.1]
      exact hpi'

end TileIterator

open TileIterator (cursor_congr next_at setPosition_at)

open TileIterator (ReadsFrom CanRead)

/-! ## The buffered reader -/

namespace BufferedIterator

variable {c : OpenChunk} {values : List Datum} {cells : List Value} {b b' : BufferedIterator}
  {cur cur' : Option Nat} {k : Nat}

/-- The tile holds up to `m` cells from the `a`-th on. -/
structure Spans (c : OpenChunk) (cells : List Value) (t : Tile) (a m : Nat) : Prop where
  pos : 0 < m
  lt : a < c.visible.length
  eq : t = ⟨c.valuesFrom cells a m, c.coordsFrom a m⟩

/-- Where the reader stands: with the tiled reader, or in the tile with the tiled
reader behind it. -/
inductive Place (c : OpenChunk) (cells : List Value) (b : BufferedIterator) :
    Option Nat → Prop where
  | outside {cur : Option Nat} : b.currLPosInTile = none → b.tiled.At c cur → Place c cells b cur
  | within {t : Tile} {a m i : Nat} {e : Nat × Nat} : b.currLPosInTile = some e.1 →
      b.tile = some t → Spans c cells t a m → b.currTileIndex = i → i < m →
      c.visible[a + i]? = some e → b.tiled.At c (c.cursor (a + m)) → Place c cells b (some (a + i))

/-- What holds between two calls. -/
structure Inv (c : OpenChunk) (cells : List Value) (b : BufferedIterator) (cur : Option Nat) :
    Prop where
  fast : b.tiled.fastTileInitialize = true → c.visible.length = cells.length
  pinned : b.tiled.isDataChunkPinned = c.isDataChunkPinned
  tile : ∀ t, b.tile = some t → ∃ a m, Spans c cells t a m
  place : Place c cells b cur

/-- The tile and what moving leaves as it is. -/
def frame (b : BufferedIterator) : Option Tile × Iterator × Bool × Bool :=
  (b.tile, b.tiled.frame)

theorem frame_eq_iff : b'.frame = b.frame ↔ b'.tile = b.tile ∧
    b'.tiled.payloadIterator = b.tiled.payloadIterator ∧
    b'.tiled.fastTileInitialize = b.tiled.fastTileInitialize ∧
    b'.tiled.isDataChunkPinned = b.tiled.isDataChunkPinned := by
  simp [frame, TileIterator.frame]

theorem Inv.of_frame (h : Inv c cells b cur) (hframe : b'.frame = b.frame)
    (hplace : Place c cells b' cur') : Inv c cells b' cur' := by
  rcases frame_eq_iff.mp hframe with ⟨htile, -, hfast, hpinned⟩
  exact ⟨hfast ▸ h.fast, hpinned ▸ h.pinned, htile ▸ h.tile, hplace⟩

/-- The reader has left the tile for the tiled reader. -/
theorem Inv.outside (h : Inv c cells b cur) {it : TileIterator}
    (hat : it.At c cur') (hframe : it.frame = b.tiled.frame) :
    Inv c cells { b.clearCurrentLPosInTile with tiled := it } cur' ∧
      ({ b.clearCurrentLPosInTile with tiled := it } : BufferedIterator).frame = b.frame :=
  have hframe' := congrArg (Prod.mk b.tile) hframe
  ⟨h.of_frame hframe' (.outside rfl hat), hframe'⟩

variable {e : Nat × Nat} {t : Tile} {v : Value} {n pos a m q : Nat}

theorem getTile_eq (ht : b.tile = some t) : b.getTile = .ok t := by
  rw [getTile, ht]

theorem Spans.length (hspans : Spans c cells t a m) :
    t.coords.length = min m (c.visible.length - a) := by
  rw [hspans.eq]
  exact length_coordsFrom

theorem tiled_at (hinv : Inv c cells b cur) (hout : b.currLPosInTile = none) :
    b.tiled.At c cur := by
  cases hinv.place with
  | outside _ hat => exact hat
  | within hin => rw [hout] at hin; cases hin

/-- The position is not in the last tile. -/
def Uncached (b : BufferedIterator) (pos : Nat) : Prop :=
  ∀ t, b.tile = some t → pos ∉ t.coords

section

variable (h : c.Holding values cells)

include h

theorem restart_inv (hinv : Inv c cells b cur) :
    ∃ b', b.restart c = .ok b' ∧ Inv c cells b' (c.cursor 0) ∧ b'.frame = b.frame := by
  rcases TileIterator.restart_at h b.tiled with ⟨it, hit, hat, hframe⟩
  rw [restart, hit]
  exact ⟨_, rfl, hinv.outside hat hframe⟩

theorem setPosition_inv (hinv : Inv c cells b cur)
    (he : c.visible[k]? = some e) :
    ∃ b', b.setPosition c e.1 = .ok (true, b') ∧ Inv c cells b' (some k) ∧ b'.frame = b.frame ∧
      b'.currLPosInTile = none := by
  rcases setPosition_at h b.tiled he with ⟨it, hit, hat, hframe⟩
  rw [setPosition, hit]
  exact ⟨_, rfl, (hinv.outside hat hframe).1, (hinv.outside hat hframe).2, rfl⟩

theorem setPosition_inv_none (hinv : Inv c cells b cur)
    (hnone : c.visible.lookup pos = none) :
    ∃ b', b.setPosition c pos = .ok (false, b') ∧ Inv c cells b' none ∧ b'.frame = b.frame := by
  rcases TileIterator.setPosition_none h b.tiled hnone with ⟨it, hit, hat, hframe⟩
  rw [setPosition, hit]
  exact ⟨_, rfl, hinv.outside hat hframe⟩

/-- The positions and the values of a tile. -/
theorem Spans.getElem {i : Nat} (hspans : Spans c cells t a m)
    (hi : i < m) (he : c.visible[a + i]? = some e) :
    t.coords[i]? = some e.1 ∧ t.data[i]? = cells[e.2]? := by
  rw [hspans.eq]
  refine ⟨?_, h.getElem?_valuesFrom hi he⟩
  rw [getElem?_coordsFrom hi, he]
  rfl

theorem Spans.pairwise (hspans : Spans c cells t a m) : t.coords.Pairwise (· < ·) := by
  rw [hspans.eq]
  exact h.pairwise_coordsFrom

theorem next_inv (hinv : Inv c cells b (some k)) :
    ∃ b', b.next c = .ok b' ∧ Inv c cells b' (c.cursor (k + 1)) ∧ b'.frame = b.frame := by
  cases hinv.place with
  | outside hout hat =>
    rcases next_at h hat with ⟨it, hit, hat', hframe⟩
    have hframe' : ({ b with tiled := it } : BufferedIterator).frame = b.frame :=
      congrArg (Prod.mk b.tile) hframe
    unfold next
    rw [hout]
    simp only [hit]
    exact ⟨_, rfl, hinv.of_frame hframe' (.outside rfl hat'), hframe'⟩
  | @within t a m i e hin ht hspans hidx hi he hat =>
    have hlt : a + i < c.visible.length := (List.getElem?_eq_some_iff.mp he).1
    have hlen := hspans.length
    unfold next
    rw [hin]
    simp only [getTile_eq ht, bind, Except.bind, hidx,
      require_pos (show i < t.coords.length by omega)]
    by_cases hlast : i + 1 ≥ t.coords.length
    · -- behind the tile stands the tiled reader
      have hcursor : c.cursor (a + i + 1) = c.cursor (a + m) := cursor_congr (by omega)
      rw [if_pos hlast]
      refine ⟨b.clearCurrentLPosInTile, rfl, ?_, rfl⟩
      rw [hcursor]
      exact Inv.of_frame hinv rfl (.outside rfl hat)
    · have hnext : a + (i + 1) < c.visible.length := by omega
      rcases getElem?_visible hnext with ⟨f, hf⟩
      have hgt := (h.lt_of_lt (by omega) he hf).1
      have hcursor : c.cursor (a + i + 1) = some (a + (i + 1)) := if_pos hnext
      rw [if_neg hlast, elementAt_eq (hspans.getElem h (by omega) hf).1]
      simp only [require_pos (show f.1 > e.1 from hgt)]
      refine ⟨_, rfl, ?_, rfl⟩
      rw [hcursor]
      exact Inv.of_frame hinv rfl (.within rfl ht hspans rfl (by omega) hf hat)

/-- A cell in the tile is read from there. -/
theorem getItem_within (hinv : Inv c cells b (some k))
    (hin : b.currLPosInTile ≠ none) (he : c.visible[k]? = some e) (hv : cells[e.2]? = some v)
    (n : Nat) : b.getItem c n = .ok (v, b) := by
  cases hinv.place with
  | outside hout => exact absurd hout hin
  | @within t a m i e' hin' ht hspans hidx hi he' _ =>
    have hlt := (List.getElem?_eq_some_iff.mp he).1
    have hlen := hspans.length
    unfold getItem
    rw [hin']
    simp only [getTile_eq ht, bind, Except.bind, hidx,
      require_pos (show i < t.coords.length by omega),
      elementAt_eq ((hspans.getElem h hi he).2.trans hv)]
    rfl

/-- A cell of the last tile is found there again, and the tiled reader goes behind
the tile. -/
theorem getItem_cached (hinv : Inv c cells b (some k))
    (hout : b.currLPosInTile = none) (he : c.visible[k]? = some e) (hv : cells[e.2]? = some v)
    (ht : b.tile = some t) (hmem : e.1 ∈ t.coords) (n : Nat) :
    ∃ b', b.getItem c n = .ok (v, b') ∧ Inv c cells b' (some k) ∧ b'.frame = b.frame := by
  rcases hinv.tile t ht with ⟨a, m, hspans⟩
  rcases List.getElem?_of_mem hmem with ⟨i, hi⟩
  have hlen := hspans.length
  have hlt := (List.getElem?_eq_some_iff.mp hi).1
  -- the index in the tile is the distance of the cell
  rcases getElem?_visible (show a + i < c.visible.length by omega) with ⟨f, hf⟩
  have hfi := (hspans.getElem h (by omega) hf).1
  have hk : k = a + i := by
    rw [hi, Option.some.injEq] at hfi
    exact h.increasing.sorted.index_unique he hf hfi
  subst hk
  have hat := tiled_at hinv hout
  rcases getElem?_visible (show a + (t.coords.length - 1) < c.visible.length by omega) with ⟨g, hg⟩
  have hlast := (hspans.getElem h (by omega) hg).1
  rcases setPosition_at h b.tiled hg with ⟨it₁, hit₁, hat₁, hframe₁⟩
  rcases next_at h hat₁ with ⟨it₂, hit₂, hat₂, hframe₂⟩
  have hcursor : c.cursor (a + (t.coords.length - 1) + 1) = c.cursor (a + m) := by
    exact cursor_congr (by omega)
  have hlocate : b.locate c n e.1 = .ok ({ b with tiled := it₂ }, i) := by
    have hfound : b.findInTile e.1 = .ok (some i) := by
      rw [findInTile, ht]
      exact findPosition_some (hspans.pairwise h) 0 hi
    unfold locate
    simp only [hfound, bind, Except.bind, getTile_eq ht, elementAt_eq hlast, hit₁, hit₂]
    rfl
  have hframe' : ({ b with tiled := it₂, currLPosInTile := some e.1, currTileIndex := i } :
      BufferedIterator).frame = b.frame := congrArg (Prod.mk b.tile) (hframe₂.trans hframe₁)
  refine ⟨{ b with tiled := it₂, currLPosInTile := some e.1, currTileIndex := i }, ?_, ?_, hframe'⟩
  · unfold getItem
    rw [hout]
    have ht' : getTile { b with tiled := it₂ } = .ok t := getTile_eq ht
    simp only [hat.getLogicalPosition he, hlocate, bind, Except.bind, ht', elementAt_eq hi,
      require_pos (le_refl e.1), elementAt_eq ((hspans.getElem h (by omega) he).2.trans hv)]
    rfl
  · exact hinv.of_frame hframe' (.within rfl ht hspans rfl (by omega) he (hcursor ▸ hat₂))

theorem locate_uncached (hinv : Inv c cells b cur)
    (hun : b.Uncached pos) (n : Nat) :
    b.locate c n pos = (do
      let (tiled, tile) ← b.tiled.getData c pos n
      require (tiled.lPosition ≠ some pos) (.assertion "nextTilePos!=lPos") <|
        .ok ({ b with tiled := tiled, tile := tile <|> b.tile }, 0)) := by
  have hfound : b.findInTile pos = .ok none := by
    unfold findInTile
    cases ht : b.tile with
    | none => rfl
    | some t =>
      rcases hinv.tile t ht with ⟨a, m, hspans⟩
      exact findPosition_none (hspans.pairwise h) 0 (hun t ht)
  unfold locate
  rw [hfound]
  rfl

/-- Other cells are read with a new tile. -/
theorem getItem_read (hinv : Inv c cells b (some k))
    (hout : b.currLPosInTile = none) (he : c.visible[k]? = some e) (hv : cells[e.2]? = some v)
    (hun : b.Uncached e.1) (hn : 0 < n) (hq : b.tiled.ReadsFrom c cells q)
    (hcan : b.tiled.CanRead c cells k n q) :
    ∃ b' q', b.getItem c n = .ok (v, b') ∧ Inv c cells b' (some k) ∧
      b'.tile = some ⟨c.valuesFrom cells k n, c.coordsFrom k n⟩ ∧
      b.tiled.LeftAt c cells b'.tiled k n q q' := by
  have hat := tiled_at hinv hout
  have hk : k < c.visible.length := (List.getElem?_eq_some_iff.mp he).1
  rcases TileIterator.getData_at h hat he hq hinv.fast hn hcan with
    ⟨it, q', hdata, hat', hl, hpinned, hleft⟩
  have hspans : Spans c cells ⟨c.valuesFrom cells k n, c.coordsFrom k n⟩ k n := ⟨hn, hk, rfl⟩
  have he' : c.visible[k + 0]? = some e := he
  rcases hspans.getElem h hn he' with ⟨hcoord, hdatum⟩
  refine ⟨⟨it, some ⟨c.valuesFrom cells k n, c.coordsFrom k n⟩, some e.1, 0⟩, q', ?_,
    ?_, rfl, hleft⟩
  · unfold getItem
    rw [hout]
    simp only [hat.getLogicalPosition he, locate_uncached h hinv hun, hdata, bind, Except.bind,
      require_pos hl, Option.orElse_eq_orElse, Option.orElse_some, getTile, elementAt_eq hcoord,
      require_pos (le_refl e.1), elementAt_eq (hdatum.trans hv)]
    rfl
  · refine ⟨fun htrue => hinv.fast (hleft.2.1 ▸ htrue), hpinned.trans hinv.pinned, ?_, ?_⟩
    · intro t ht
      rw [Option.some.injEq] at ht
      exact ⟨k, n, ht ▸ hspans⟩
    · exact .within rfl rfl hspans rfl hn he' hat'

end

/-- A pinned chunk is no problem: the payload iterator has not reached the end, or the
only cell is in the tile already. -/
def Ready (c : OpenChunk) (cells : List Value) (b : BufferedIterator) : Prop :=
  c.isDataChunkPinned = true → 0 < c.visible.length →
    (∃ q < cells.length, b.tiled.payloadIterator.At c.payload cells q) ∨
      (c.visible.length ≤ 1 ∧ b.tile.isSome)

theorem Ready.of_frame (h : b.Ready c cells) (hframe : b'.frame = b.frame) : b'.Ready c cells := by
  rcases frame_eq_iff.mp hframe with ⟨htile, hpi, -⟩
  rw [Ready, htile, hpi]
  exact h

/-- When a pinned chunk is no problem. -/
def Harmless (c : OpenChunk) (cells : List Value) : Prop :=
  c.isDataChunkPinned = false ∨ c.visible.length ≤ 1 ∨ ∀ e ∈ c.visible, e.2 + 1 < cells.length

/-- Reading the current cell, in a harmless chunk. -/
theorem getItem_inv (h : c.Holding values cells) (hharm : Harmless c cells)
    (hinv : Inv c cells b (some k)) (hready : b.Ready c cells) (he : c.visible[k]? = some e)
    (hv : cells[e.2]? = some v) (hn : 0 < n) :
    ∃ b', b.getItem c n = .ok (v, b') ∧ Inv c cells b' (some k) ∧ b'.Ready c cells := by
  have hk : k < c.visible.length := (List.getElem?_eq_some_iff.mp he).1
  by_cases hout : b.currLPosInTile = none
  · by_cases hun : b.Uncached e.1
    · -- where the payload iterator stands
      obtain ⟨q, hq, hlt⟩ : ∃ q, b.tiled.ReadsFrom c cells q ∧
          (q = 0 ∨ q < cells.length ∧ c.isDataChunkPinned = true) := by
        unfold ReadsFrom
        rw [hinv.pinned]
        cases hpinned : c.isDataChunkPinned with
        | false => exact ⟨0, by simp, .inl rfl⟩
        | true =>
          rcases hready hpinned (by omega) with ⟨q, hlt, hat⟩ | ⟨hone, hsome⟩
          · exact ⟨q, by simpa using hat, .inr ⟨hlt, rfl⟩⟩
          · -- the only cell is in the tile
            rcases Option.isSome_iff_exists.mp hsome with ⟨t, ht⟩
            rcases hinv.tile t ht with ⟨a, m, hspans⟩
            have ha : a + 0 = k := by
              have := hspans.lt
              omega
            have hmem := (hspans.getElem h hspans.pos (ha ▸ he)).1
            exact absurd (mem_of_getElem? hmem) (hun t ht)
      have hlen : c.visible.length ≤ cells.length := h.visible_spec.2.1.length_le.trans h.few
      -- with all values visible a pinned chunk has one cell only
      have hone : b.tiled.fastTileInitialize = true → c.isDataChunkPinned = true →
          c.visible.length ≤ 1 := by
        intro hfast hpinned
        rcases hharm with hno | hone | hall
        · rw [hpinned] at hno
          cases hno
        · exact hone
        · rcases getElem?_visible (show c.visible.length - 1 < c.visible.length by
            omega) with ⟨f, hf⟩
          have := hall f (mem_of_getElem? hf)
          have := h.snd_eq (hinv.fast hfast) hf
          have := hinv.fast hfast
          omega
      have hcan : b.tiled.CanRead c cells k n q := by
        unfold CanRead
        split
        · rename_i hfast
          rcases hlt with rfl | ⟨hlt, hpinned⟩
          · omega
          · have := hone hfast hpinned
            omega
        · omega
      rcases getItem_read h hinv hout he hv hun hn hq hcan with
        ⟨b', q', hget, hinv', htile, hpi, -, -, hslow⟩
      refine ⟨b', hget, hinv', ?_⟩
      intro hpinned _
      cases hfast : b.tiled.fastTileInitialize with
      | true => exact .inr ⟨hone hfast hpinned, by rw [htile]; rfl⟩
      | false =>
        rcases hslow hfast with ⟨f, hf, rfl⟩
        rcases hharm with hno | hone | hall
        · rw [hpinned] at hno
          cases hno
        · exact .inr ⟨hone, by rw [htile]; rfl⟩
        · exact .inl ⟨f.2 + 1, hall f (mem_of_getElem? hf), hpi⟩
    · unfold Uncached at hun
      push Not at hun
      rcases hun with ⟨t, ht, hmem⟩
      rcases getItem_cached h hinv hout he hv ht hmem n with ⟨b', hget, hinv', hframe⟩
      exact ⟨b', hget, hinv', hready.of_frame hframe⟩
  · exact ⟨b, getItem_within h hinv hout he hv n, hinv, hready⟩

end BufferedIterator

/-! ## Both readers together -/

section

variable {c : OpenChunk} {values : List Datum} {cells : List Value} {it : ConstIterator}
  {b : BufferedIterator} {n : Nat}

/-- Both readers stand at the same cell. -/
def Together (c : OpenChunk) (cells : List Value) (it : ConstIterator) (b : BufferedIterator) :
    Prop :=
  ∃ cur, it.At c cells cur ∧ BufferedIterator.Inv c cells b cur

theorem ConstIterator.At.look (h : c.Holding values cells) {cur : Option Nat}
    (hat : it.At c cells cur) :
    it.look c = .ok (cur.bind fun k => (c.visible[k]?).map Prod.fst) := by
  rw [ConstIterator.look, hat.atEnd_eq]
  cases cur with
  | none => rfl
  | some k =>
    have hat' := hat
    cases hat with
    | @cell _ e _ _ he _ =>
      rcases h.value he with ⟨v, hv⟩
      simp only [(hat'.sees h he hv).1, Option.bind_some, he]
      rfl

theorem ConstIterator.At.exists_cell {k : Nat} (hat : it.At c cells (some k)) :
    ∃ e, c.visible[k]? = some e := by
  cases hat with
  | cell _ _ he _ => exact ⟨_, he⟩

/-- One call of both readers. -/
theorem BufferedIterator.step (h : c.Holding values cells) (hharm : Harmless c cells)
    (htogether : Together c cells it b) (hready : b.Ready c cells) (hn : 0 < n) {x : Call}
    (hlegal : x = .next ∨ x = .getItem → it.atEnd = false) :
    ∃ a it' b', it.call c x = .ok (a, it') ∧ b.call c n x = .ok (a, b') ∧
      Together c cells it' b' ∧ b'.Ready c cells := by
  rcases htogether with ⟨cur, hat, hinv⟩
  have hcell : x = .next ∨ x = .getItem → ∃ k, cur = some k := by
    intro hx
    simpa [hat.atEnd_eq, Option.isSome_iff_exists] using hlegal hx
  cases x with
  | restart =>
    rcases restart_at h it with ⟨it', hit', hat'⟩
    rcases restart_inv h hinv with ⟨b', hb', hinv', hframe⟩
    rw [ConstIterator.call, call, hit', hb']
    exact ⟨_, it', b', rfl, rfl, ⟨_, hat', hinv'⟩, hready.of_frame hframe⟩
  | setPosition pos =>
    rw [ConstIterator.call, call]
    cases hlookup : c.visible.lookup pos with
    | none =>
      rcases setPosition_none h it hlookup with ⟨it', hit', hat'⟩
      rcases setPosition_inv_none h hinv hlookup with ⟨b', hb', hinv', hframe⟩
      rw [hit', hb']
      exact ⟨_, it', b', rfl, rfl, ⟨_, hat', hinv'⟩, hready.of_frame hframe⟩
    | some p =>
      rcases getElem?_of_mem (OrderedMap.mem_of_lookup hlookup) with ⟨k, hk⟩
      rcases setPosition_at h it hk with ⟨it', hit', hat'⟩
      rcases setPosition_inv h hinv hk with ⟨b', hb', hinv', hframe, _⟩
      rw [hit', hb']
      exact ⟨_, it', b', rfl, rfl, ⟨_, hat', hinv'⟩, hready.of_frame hframe⟩
  | next =>
    obtain ⟨k, rfl⟩ := hcell (.inl rfl)
    rcases next_at h hat with ⟨it', hit', hat'⟩
    rcases next_inv h hinv with ⟨b', hb', hinv', hframe⟩
    rw [ConstIterator.call, call, hit', hb']
    exact ⟨_, it', b', rfl, rfl, ⟨_, hat', hinv'⟩, hready.of_frame hframe⟩
  | getItem =>
    obtain ⟨k, rfl⟩ := hcell (.inr rfl)
    rcases hat.exists_cell with ⟨e, he⟩
    rcases h.value he with ⟨v, hv⟩
    rcases getItem_inv h hharm hinv hready he hv hn with ⟨b', hb', hinv', hready'⟩
    rw [ConstIterator.call, call, (hat.sees h he hv).2, hb']
    exact ⟨_, it, b', rfl, rfl, ⟨_, hat, hinv'⟩, hready'⟩

end

/-! ## Reading cells in any order -/

section

variable {c : OpenChunk} {values : List Datum} {cells : List Value} {b : BufferedIterator}
  {cur : Option Nat} {n : Nat}

variable (h : c.Holding values cells) {e : Nat × Nat}

include h

namespace BufferedIterator

end BufferedIterator

open BufferedIterator

end

end SciDB.Rle
