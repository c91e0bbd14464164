import SciDB.Rle.Bitmap

/-!
# Reading a chunk

A reader walks over the cells of a chunk's empty bitmap and takes the value of
each one from the payload.  The bitmap lies behind the payload in the data of the
chunk, or in a chunk of its own, or is missing; without one every position of the
chunk has a cell.  A reader that ignores the overlaps of the chunk cuts them from
the bitmap first.

The definitions follow `ConstRLEEmptyBitmap::iterator` of `include/array/RLE.h`
and `RLEConstChunkIterator` of `src/array/MemChunk.cpp`, in the mode that reads
cells one by one.  Coordinates are given by their positions in the chunk.

Main results:

- Theorem {lit}`CellIterator.setPosition_at`: where a cell is found.
- Theorem {lit}`Bitmap.entries_cut`: what is left of a bitmap.
- Theorem {lit}`ConstIterator.next_at`: the reader visits the cells in order.
-/

namespace SciDB.Rle

open OrderedMap List Iterator

/-! ## Cells of a bitmap -/

/-- `ConstRLEEmptyBitmap::iterator`; the position means nothing at the end. -/
structure CellIterator where
  currSeg : Nat
  currLPos : Nat
deriving DecidableEq, Repr

namespace CellIterator

variable (bm : Bitmap)

/-- `end` -/
def atEnd (it : CellIterator) : Prop :=
  it.currSeg ≥ bm.segs.length

instance (bm : Bitmap) (it : CellIterator) : Decidable (it.atEnd bm) :=
  inferInstanceAs (Decidable (_ ≥ _))

/-- Move to the start of a segment, if there is one. -/
def toSegment (it : CellIterator) (i : Nat) : Except Fault CellIterator :=
  let it := { it with currSeg := i }
  if it.atEnd bm then .ok it
  else do
    let s ← bm.getSegment i
    return { it with currLPos := s.lPosition }

/-- `restart` -/
def restart (it : CellIterator) : Except Fault CellIterator :=
  it.toSegment bm 0

/-- `getLPos` -/
def getLPos (it : CellIterator) : Except Fault Nat :=
  require (¬ it.atEnd bm) (.assertion "!const_end()") <| .ok it.currLPos

/-- `getPPos` -/
def getPPos (it : CellIterator) : Except Fault Nat :=
  require (¬ it.atEnd bm) (.assertion "!const_end()") do
    let s ← bm.getSegment it.currSeg
    return s.pPosition + it.currLPos - s.lPosition

/-- `setPosition` -/
def setPosition (it : CellIterator) (lPos : Nat) :
    Except Fault (Bool × CellIterator) := do
  let i ← bm.findSegment lPos
  if i ≥ bm.segs.length then
    return (false, { it with currSeg := bm.segs.length })
  else
    let s ← bm.getSegment i
    if s.lPosition > lPos then
      return (false, { it with currSeg := bm.segs.length })
    else
      return (true, ⟨i, lPos⟩)

/-- `operator++` -/
def next (it : CellIterator) : Except Fault CellIterator :=
  require (¬ it.atEnd bm) (.assertion "!end()") do
    let s ← bm.getSegment it.currSeg
    if it.currLPos + 1 < s.lPosition + s.length then
      return { it with currLPos := it.currLPos + 1 }
    else
      it.toSegment bm (it.currSeg + 1)

/-- The iterator stands at the `k`-th cell, or at the end. -/
inductive At (bm : Bitmap) (it : CellIterator) (k : Nat) : Prop where
  | cell {a b : List BitmapSegment} {s : BitmapSegment} {j : Nat} :
      bm.segs = a ++ s :: b → it.currSeg = a.length → j < s.length →
      it.currLPos = s.lPosition + j → k = (entries a).length + j → At bm it k
  | done : it.atEnd bm → k = (entries bm.segs).length → At bm it k

end CellIterator

variable {l p j pos n k : Nat} {segs : List BitmapSegment} {e : Nat × Nat} {s : BitmapSegment}

theorem getElem?_block (h : j < n) : (block l p n)[j]? = some (l + j, p + j) := by
  rw [block, getElem?_map, getElem?_range h]
  rfl

theorem entries_append (a b : List BitmapSegment) : entries (a ++ b) = entries a ++ entries b :=
  flatMap_append

namespace CellIterator

variable {bm : Bitmap} {it : CellIterator} {k : Nat}

variable {a b : List BitmapSegment}

theorem getSegment_eq (h : bm.segs = a ++ s :: b) : bm.getSegment a.length = .ok s := by
  rw [Bitmap.getSegment, h, getElem?_append_right le_rfl, Nat.sub_self]
  rfl

theorem At.lt (hsegs : bm.segs = a ++ s :: b) (hj : j < s.length) :
    (entries a).length + j < (entries bm.segs).length := by
  rw [hsegs, entries_append, entries_cons, length_append, length_append, length_block]
  omega

theorem getElem?_entries (hsegs : bm.segs = a ++ s :: b)
    (hj : j < s.length) : (entries bm.segs)[(entries a).length + j]? =
      some (s.lPosition + j, s.pPosition + j) := by
  rw [hsegs, entries_append, entries_cons, getElem?_append_right (Nat.le_add_right _ _),
    Nat.add_sub_cancel_left, getElem?_append_left (by rwa [length_block]), getElem?_block hj]

theorem At.atEnd_iff (h : it.At bm k) : it.atEnd bm ↔ k = (entries bm.segs).length := by
  cases h with
  | cell hsegs hcur hj _ hk =>
    have hlt := At.lt hsegs hj
    have hlen := congrArg List.length hsegs
    rw [length_append, length_cons] at hlen
    unfold atEnd
    omega
  | done hend hk => exact ⟨fun _ => hk, fun _ => hend⟩

theorem At.le (h : it.At bm k) : k ≤ (entries bm.segs).length := by
  cases h with
  | cell hsegs _ hj _ hk => exact hk ▸ (At.lt hsegs hj).le
  | done _ hk => exact hk.le

/-- The positions of the current cell. -/
theorem At.positions (h : it.At bm k) (he : (entries bm.segs)[k]? = some e) :
    it.getLPos bm = .ok e.1 ∧ it.getPPos bm = .ok e.2 := by
  have hlt := (List.getElem?_eq_some_iff.mp he).1
  have hend : ¬ it.atEnd bm := fun hend => hlt.ne (h.atEnd_iff.mp hend)
  cases h with
  | @cell a b s j hsegs hcur hj hpos hk =>
    rw [hk, getElem?_entries hsegs hj, Option.some.injEq] at he
    subst he
    refine ⟨?_, ?_⟩
    · rw [getLPos, require_pos hend, hpos]
    · rw [getPPos, require_pos hend, hcur, getSegment_eq hsegs]
      show Except.ok _ = _
      congr 1
      omega
  | done hend' _ => exact absurd hend' hend

variable (h : Increasing 0 0 bm.segs)

include h

/-- The start of a segment is a cell. -/
theorem toSegment_at (hsegs : bm.segs = a ++ b) (it : CellIterator) :
    ∃ it', it.toSegment bm a.length = .ok it' ∧ it'.At bm (entries a).length := by
  unfold toSegment
  cases b with
  | nil =>
    have hend : atEnd bm { it with currSeg := a.length } := by
      rw [atEnd, hsegs, append_nil]
    exact ⟨_, if_pos hend, .done hend (by rw [hsegs, append_nil])⟩
  | cons s b =>
    have hend : ¬ atEnd bm { it with currSeg := a.length } := by
      rw [atEnd, hsegs]
      simp
    have hpos : 0 < s.length := h.length_pos (by rw [hsegs]; simp)
    simp only [if_neg hend, getSegment_eq hsegs]
    exact ⟨_, rfl, .cell hsegs rfl hpos rfl rfl⟩

/-- A new start is at the first cell. -/
theorem restart_at (it : CellIterator) : ∃ it', it.restart bm = .ok it' ∧ it'.At bm 0 :=
  toSegment_at h (nil_append bm.segs).symm it

/-- One step forward. -/
theorem next_at (hat : it.At bm k) (hk : k < (entries bm.segs).length) :
    ∃ it', it.next bm = .ok it' ∧ it'.At bm (k + 1) := by
  have hend : ¬ it.atEnd bm := fun hend => hk.ne (hat.atEnd_iff.mp hend)
  rw [next, require_pos hend]
  cases hat with
  | @cell a b s j hsegs hcur hj hpos heq =>
    rw [hcur]
    simp only [getSegment_eq hsegs, bind, Except.bind]
    by_cases hlast : j + 1 < s.length
    · rw [if_pos (by omega)]
      refine ⟨_, rfl, .cell hsegs rfl hlast ?_ ?_⟩
      · show it.currLPos + 1 = _
        omega
      · omega
    · rw [if_neg (by omega)]
      have hsplit : bm.segs = (a ++ [s]) ++ b := by
        rw [hsegs, append_assoc]
        rfl
      rcases toSegment_at h hsplit it with ⟨it', hit', hat'⟩
      rw [length_append] at hit'
      refine ⟨it', hit', ?_⟩
      have hcount : k + 1 = (entries (a ++ [s])).length := by
        rw [entries_concat, length_append, length_block]
        omega
      rw [hcount]
      exact hat'
  | done hend' _ => exact absurd hend' hend

/-- A position of a cell is found there. -/
theorem setPosition_at (it : CellIterator) (he : (entries bm.segs)[k]? = some e) :
    ∃ it', it.setPosition bm e.1 = .ok (true, it') ∧ it'.At bm k := by
  rcases h.locate e.1 with ⟨a, b, hsegs, ha, hb, htail⟩
  rw [setPosition, Bitmap.findSegment_eq hsegs ha hb]
  simp only [bind, Except.bind]
  have hmem : e ∈ entries bm.segs := mem_of_getElem? he
  have hsome : (entries bm.segs).lookup e.1 = some e.2 := lookup_of_mem h.sorted hmem
  cases b with
  | nil =>
    rw [hsegs, lookup_eq_none ha (by simp)] at hsome
    cases hsome
  | cons s b =>
    have hle : s.lPosition ≤ e.1 := by
      by_contra hgt
      have hafter : ∀ t ∈ s :: b, e.1 < t.lPosition :=
        forall_mem_cons.mpr ⟨by omega, htail⟩
      rw [hsegs, lookup_eq_none ha hafter] at hsome
      cases hsome
    have hlt := hb s mem_cons_self
    rw [if_neg (by rw [hsegs]; simp), getSegment_eq hsegs]
    simp only [if_neg (Nat.not_lt.mpr hle)]
    refine ⟨_, rfl, .cell hsegs rfl (show e.1 - s.lPosition < s.length by omega) ?_ ?_⟩
    · show e.1 = _
      omega
    · -- the cell found has the same logical position, so it is the same
      exact h.sorted.index_unique he (getElem?_entries hsegs (by omega))
        (Nat.add_sub_cancel' hle).symm

/-- A position without a cell is not found. -/
theorem setPosition_none (it : CellIterator)
    (hnone : (entries bm.segs).lookup pos = none) :
    ∃ it', it.setPosition bm pos = .ok (false, it') ∧ it'.At bm (entries bm.segs).length := by
  rcases h.locate pos with ⟨a, b, hsegs, ha, hb, htail⟩
  have hend : atEnd bm { it with currSeg := bm.segs.length } := le_rfl
  rw [setPosition, Bitmap.findSegment_eq hsegs ha hb]
  simp only [bind, Except.bind]
  cases b with
  | nil =>
    rw [if_pos (by rw [hsegs]; simp)]
    exact ⟨_, rfl, .done hend rfl⟩
  | cons s b =>
    have hgt : s.lPosition > pos := by
      by_contra hle
      have hlt := hb s mem_cons_self
      have hmem : (pos, s.pPosition + (pos - s.lPosition)) ∈ entries bm.segs := by
        refine mem_entries.mpr ⟨s, by simp [hsegs], pos - s.lPosition, by omega, ?_⟩
        rw [Prod.mk.injEq]
        omega
      rw [lookup_of_mem h.sorted hmem] at hnone
      cases hnone
    rw [if_neg (by rw [hsegs]; simp), getSegment_eq hsegs]
    simp only [if_pos hgt]
    exact ⟨_, rfl, .done hend rfl⟩

end CellIterator

/-! ## Cutting overlaps -/

/-- `BitmapReplicator::copy` for one position: it extends the last segment or starts
a new one. -/
def Bitmap.copy (bm : Bitmap) (e : Nat × Nat) : Bitmap :=
  match bm.segs.getLast? with
  | none => ⟨[⟨e.1, 1, e.2⟩], bm.nNonEmptyElements + 1⟩
  | some last =>
    if last.lPosition + last.length = e.1 then
      ⟨bm.segs.dropLast ++ [{ last with length := last.length + 1 }], bm.nNonEmptyElements + 1⟩
    else ⟨bm.segs ++ [⟨e.1, 1, e.2⟩], bm.nNonEmptyElements + 1⟩

/-- `cut`: the positions outside the overlaps. -/
def Bitmap.cut (bm : Bitmap) (inner : Nat → Bool) : Bitmap :=
  ((entries bm.segs).filter fun e => inner e.1).foldl Bitmap.copy ⟨[], 0⟩

/-- `RLEEmptyBitmap(position_t nBits)`: a cell at every position. -/
def Bitmap.full (nBits : Nat) : Bitmap :=
  ⟨[⟨0, nBits, 0⟩], nBits⟩

theorem increasing_concat :
    Increasing p l (segs ++ [s]) ↔ Increasing p l segs ∧ 0 < s.length ∧ l ≤ s.lPosition ∧
      p ≤ s.pPosition ∧ ∀ t ∈ segs, t.lPosition + t.length ≤ s.lPosition ∧
        t.pPosition + t.length ≤ s.pPosition := by
  induction segs generalizing p l with
  | nil => simp [Increasing, and_comm, and_assoc]
  | cons t segs ih =>
    rw [cons_append, Increasing, ih, forall_mem_cons]
    constructor
    · rintro ⟨hl, hlen, hp, h, hlen', hl', hp', hall⟩
      exact ⟨⟨hl, hlen, hp, h⟩, hlen', by omega, by omega, ⟨hl', hp'⟩, hall⟩
    · rintro ⟨⟨hl, hlen, hp, h⟩, hlen', _, _, ⟨hl', hp'⟩, hall⟩
      exact ⟨hl, hlen, hp, h, hlen', hl', hp', hall⟩

/-- A cell behind another one; if nothing lies between their logical positions,
nothing lies between their physical ones. -/
def Follows (e f : Nat × Nat) : Prop :=
  e.1 < f.1 ∧ e.2 < f.2 ∧ (e.1 + 1 = f.1 → e.2 + 1 = f.2)

/-- Without gaps, physical positions grow no faster than logical ones. -/
theorem Dense.snd_le (h : Dense p l segs) (he : e ∈ entries segs) : e.2 + l ≤ e.1 + p := by
  induction segs generalizing p l with
  | nil => simp at he
  | cons s segs ih =>
    rcases h with ⟨hl, _, hp, h⟩
    rw [entries_cons, mem_append] at he
    rcases he with he | he
    · rcases mem_block.mp he with ⟨j, _, rfl⟩
      omega
    · have := ih h he
      omega

theorem Dense.follows (h : Dense p l segs) : (entries segs).Pairwise Follows := by
  induction segs generalizing p l with
  | nil => exact List.Pairwise.nil
  | cons s segs ih =>
    rcases h with ⟨_, _, hp, h⟩
    rw [entries_cons, pairwise_append]
    refine ⟨?_, ih h, ?_⟩
    · rw [block, pairwise_map]
      refine pairwise_lt_range.imp fun hlt => ?_
      unfold Follows
      omega
    · intro e he f hf
      rcases mem_block.mp he with ⟨j, hj, rfl⟩
      have hle := h.increasing.le_entry hf
      have hrank := h.snd_le hf
      unfold Follows
      omega

namespace Bitmap

variable {bm : Bitmap}

/-- The segments are in order and their cells are counted. -/
structure Ordered (bm : Bitmap) : Prop where
  increasing : Increasing 0 0 bm.segs
  count : bm.nNonEmptyElements = (entries bm.segs).length

theorem WellFormed.ordered (h : bm.WellFormed) : bm.Ordered :=
  ⟨h.dense.increasing, h.count⟩

/-- Copying the next cell. -/
theorem copy_spec (h : bm.Ordered)
    (hafter : ∀ f ∈ entries bm.segs, Follows f e) :
    (bm.copy e).Ordered ∧ entries (bm.copy e).segs = entries bm.segs ++ [e] := by
  have hone : block e.1 e.2 1 = [e] := rfl
  unfold copy
  rcases eq_nil_or_concat' bm.segs with hnil | ⟨init, last, hsegs⟩
  · rw [hnil]
    refine ⟨⟨?_, ?_⟩, ?_⟩
    · simp [Increasing]
    · rw [h.count, hnil]
      rfl
    · simp [hone]
  · have hinc := h.increasing
    rw [hsegs, increasing_concat] at hinc
    rcases hinc with ⟨hinit, hlen, hl, hp, hlast⟩
    -- the last cell of a segment
    have hend : ∀ t ∈ bm.segs,
        Follows (t.lPosition + (t.length - 1), t.pPosition + (t.length - 1)) e := by
      intro t ht
      have := h.increasing.length_pos ht
      exact hafter _ (mem_entries.mpr ⟨t, ht, t.length - 1, by omega, rfl⟩)
    rcases hend last (by simp [hsegs]) with ⟨hlt, hlt', hnext⟩
    rw [hsegs, getLast?_concat]
    dsimp only at hlt hlt' hnext ⊢
    by_cases hadj : last.lPosition + last.length = e.1
    · have hadj' : last.pPosition + last.length = e.2 := by omega
      have hentries : entries (init ++ [{ last with length := last.length + 1 }]) =
          entries bm.segs ++ [e] := by
        rw [hsegs, entries_concat, entries_concat, block_add, hadj, hadj', append_assoc]
        rfl
      rw [if_pos hadj, dropLast_concat]
      refine ⟨⟨?_, ?_⟩, ?_⟩
      · exact increasing_concat.mpr ⟨hinit, Nat.succ_pos _, hl, hp, hlast⟩
      · rw [hentries, h.count, length_append]
        rfl
      · rw [hentries, hsegs]
    · have hentries : entries (bm.segs ++ [⟨e.1, 1, e.2⟩]) = entries bm.segs ++ [e] := by
        rw [entries_concat, hone]
      rw [if_neg hadj, ← hsegs]
      refine ⟨⟨?_, ?_⟩, hentries⟩
      · refine increasing_concat.mpr ⟨h.increasing, Nat.one_pos, by omega, by omega, ?_⟩
        intro t ht
        rcases hend t ht with ⟨hlt₁, hlt₂, _⟩
        dsimp only at hlt₁ hlt₂ ⊢
        omega
      · rw [hentries, h.count, length_append]
        rfl

/-- Copying cells one after the other. -/
theorem foldl_copy (es : List (Nat × Nat)) (h : bm.Ordered)
    (hes : (entries bm.segs ++ es).Pairwise Follows) :
    (es.foldl copy bm).Ordered ∧ entries (es.foldl copy bm).segs = entries bm.segs ++ es := by
  induction es generalizing bm with
  | nil => exact ⟨h, (append_nil _).symm⟩
  | cons e es ih =>
    have hafter : ∀ f ∈ entries bm.segs, Follows f e := fun f hf =>
      (pairwise_append.mp hes).2.2 f hf e mem_cons_self
    rcases copy_spec h hafter with ⟨hordered, hentries⟩
    have hes' : (entries (bm.copy e).segs ++ es).Pairwise Follows := by
      rw [hentries, append_assoc]
      exact hes
    rcases ih hordered hes' with ⟨hordered', hentries'⟩
    refine ⟨hordered', ?_⟩
    rw [foldl_cons, hentries', hentries, append_assoc]
    rfl

/-- What is left of a bitmap. -/
theorem entries_cut (h : bm.WellFormed) (inner : Nat → Bool) :
    (bm.cut inner).Ordered ∧
      entries (bm.cut inner).segs = (entries bm.segs).filter fun e => inner e.1 := by
  have hempty : Ordered ⟨[], 0⟩ := ⟨trivial, rfl⟩
  have hfollows : ((entries bm.segs).filter fun e => inner e.1).Pairwise Follows :=
    h.dense.follows.filter _
  exact foldl_copy _ hempty hfollows

end Bitmap

/-! ## Readers -/

/-- What a reader is opened on. -/
structure OpenChunk where
  payload : Payload
  /-- The bitmap behind the payload. -/
  attached : Option Bitmap
  /-- The bitmap of the bitmap chunk. -/
  separate : Option Bitmap
  logicalChunkSize : Nat
  /-- `APPEND_CHUNK` -/
  appendChunk : Bool
  /-- The chunk has overlaps and the mode is `IGNORE_OVERLAPS`. -/
  ignoreOverlaps : Bool
  /-- The positions outside the overlaps. -/
  inner : Nat → Bool

namespace OpenChunk

variable (c : OpenChunk)

/-- The bitmap behind the payload is used. -/
def isEmptyBitmapAttached : Bool :=
  (c.appendChunk || c.separate.isNone) && c.attached.isSome

/-- The bitmap of the chunk, with its overlaps. -/
def storedBitmap : Bitmap :=
  (if c.isEmptyBitmapAttached then c.attached else c.separate).getD (.full c.logicalChunkSize)

/-- The bitmap of the cells to be read. -/
def emptyBitmap : Bitmap :=
  if c.ignoreOverlaps then c.storedBitmap.cut c.inner else c.storedBitmap

/-- `contains` -/
def contains (pos : Nat) : Bool :=
  pos < c.logicalChunkSize && (!c.ignoreOverlaps || c.inner pos)

/-- The cells to be read: their logical and physical positions. -/
abbrev visible : List (Nat × Nat) :=
  entries c.emptyBitmap.segs

/-- The chunk holds a payload with a value for each cell of its bitmap. -/
structure Holding (values : List Datum) (cells : List Value) : Prop where
  payload : Holds c.payload values cells
  bitmap : c.storedBitmap.WellFormed
  few : (entries c.storedBitmap.segs).length ≤ cells.length
  inside : ∀ e ∈ entries c.storedBitmap.segs, e.1 < c.logicalChunkSize

end OpenChunk

/-- `RLEConstChunkIterator` -/
structure ConstIterator where
  hasCurrent : Bool
  emptyBitmapIterator : CellIterator
  payloadIterator : Iterator
deriving DecidableEq, Repr

namespace ConstIterator

variable (c : OpenChunk)

/-- Move the payload iterator to the current cell. -/
def seek (it : ConstIterator) : Except Fault ConstIterator := do
  let pos ← it.emptyBitmapIterator.getPPos c.emptyBitmap
  let payloadIterator ← it.payloadIterator.setPosition c.payload pos
  require (¬ payloadIterator.atEnd c.payload) (.operationFailed "setPosition") <|
    .ok { it with payloadIterator := payloadIterator }

/-- `restart` -/
def restart (it : ConstIterator) : Except Fault ConstIterator := do
  let ebi ← it.emptyBitmapIterator.restart c.emptyBitmap
  let it := { it with emptyBitmapIterator := ebi, hasCurrent := ¬ ebi.atEnd c.emptyBitmap }
  if it.hasCurrent then it.seek c else return it

/-- The constructor. -/
def start : Except Fault ConstIterator := do
  let payloadIterator ← Iterator.start c.payload
  let count ← c.payload.count
  require (c.emptyBitmap.nNonEmptyElements ≤ count)
    (.assertion "emptyBitmap->count() <= payload.count()") <|
    restart c ⟨false, ⟨0, 0⟩, payloadIterator⟩

/-- `end` -/
def atEnd (it : ConstIterator) : Bool :=
  !it.hasCurrent

/-- `getPosition` -/
def getPosition (it : ConstIterator) : Except Fault Nat :=
  require it.hasCurrent .noCurrentElement <| it.emptyBitmapIterator.getLPos c.emptyBitmap

/-- `getItem` -/
def getItem (it : ConstIterator) : Except Fault Value :=
  require it.hasCurrent .noCurrentElement <| it.payloadIterator.getItem c.payload

/-- `operator++` -/
def next (it : ConstIterator) : Except Fault ConstIterator :=
  require it.hasCurrent .noCurrentElement do
    let ebi ← it.emptyBitmapIterator.next c.emptyBitmap
    let it := { it with emptyBitmapIterator := ebi }
    if ¬ ebi.atEnd c.emptyBitmap then
      let pi ← (if ¬ it.payloadIterator.atEnd c.payload then it.payloadIterator.next c.payload
        else .ok it.payloadIterator)
      let it := { it with payloadIterator := pi }
      let pos ← ebi.getPPos c.emptyBitmap
      if pi.atEnd c.payload ∨ pi.currPpos ≠ (pos : Int) then it.seek c else return it
    else
      return { it with hasCurrent := false }

/-- `setPosition` -/
def setPosition (it : ConstIterator) (pos : Nat) :
    Except Fault (Bool × ConstIterator) :=
  if ¬ c.contains pos then .ok (false, { it with hasCurrent := false })
  else do
    let (res, ebi) ← it.emptyBitmapIterator.setPosition c.emptyBitmap pos
    let it := { it with emptyBitmapIterator := ebi, hasCurrent := res }
    if ¬ res then return (false, it)
    else
      let it ← it.seek c
      return (true, it)

end ConstIterator

/-! ## What a reader sees -/

namespace OpenChunk

variable {c : OpenChunk} {values : List Datum} {cells : List Value}

section

variable (h : c.Holding values cells)

include h

/-- The visible cells are those of the bitmap outside the overlaps. -/
theorem Holding.visible_spec :
    c.emptyBitmap.Ordered ∧ c.visible.Sublist (entries c.storedBitmap.segs) ∧
      ∀ e ∈ c.visible, c.contains e.1 = true := by
  unfold visible emptyBitmap contains
  split
  · rcases Bitmap.entries_cut h.bitmap c.inner with ⟨hordered, hentries⟩
    rw [hentries]
    refine ⟨hordered, filter_sublist, ?_⟩
    intro e he
    rcases mem_filter.mp he with ⟨hmem, hinner⟩
    simp [h.inside e hmem, hinner]
  · rename_i hcut
    refine ⟨h.bitmap.ordered, List.Sublist.refl _, ?_⟩
    intro e he
    simp [h.inside e he, hcut]

theorem Holding.increasing : Increasing 0 0 c.emptyBitmap.segs :=
  h.visible_spec.1.increasing

/-- Every visible cell has a value. -/
theorem Holding.lt_cells (he : e ∈ c.visible) : e.2 < cells.length := by
  have hmem : e.2 ∈ (entries c.storedBitmap.segs).map Prod.snd :=
    mem_map_of_mem (h.visible_spec.2.1.subset he)
  rw [h.bitmap.dense.map_snd, mem_range'_1] at hmem
  have := h.few
  omega

/-- The value of a visible cell. -/
theorem Holding.value (he : c.visible[k]? = some e) : ∃ v, cells[e.2]? = some v :=
  ⟨_, getElem?_eq_getElem (h.lt_cells (mem_of_getElem? he))⟩

end

/-- The `k`-th cell, if there is one. -/
def cursor (c : OpenChunk) (k : Nat) : Option Nat :=
  if k < c.visible.length then some k else none

/-- The bitmap iterator stands at a visible cell, or there is none. -/
theorem cursor_cases {ebi : CellIterator} (hat : ebi.At c.emptyBitmap k) :
    (∃ e, c.visible[k]? = some e ∧ ¬ ebi.atEnd c.emptyBitmap ∧ c.cursor k = some k) ∨
      (ebi.atEnd c.emptyBitmap ∧ c.cursor k = none) := by
  by_cases hk : k < c.visible.length
  · exact .inl ⟨_, getElem?_eq_getElem hk, fun hend => hk.ne (hat.atEnd_iff.mp hend), if_pos hk⟩
  · exact .inr ⟨hat.atEnd_iff.mpr (le_antisymm hat.le (Nat.not_lt.mp hk)), if_neg hk⟩

end OpenChunk

namespace ConstIterator

variable {c : OpenChunk} {values : List Datum} {cells : List Value} {it : ConstIterator} {k : Nat}

/-- The reader stands at a cell, or at none. -/
inductive At (c : OpenChunk) (cells : List Value) (it : ConstIterator) : Option Nat → Prop where
  | cell {k : Nat} {e : Nat × Nat} : it.hasCurrent = true →
      it.emptyBitmapIterator.At c.emptyBitmap k → c.visible[k]? = some e →
      it.payloadIterator.At c.payload cells e.2 → At c cells it (some k)
  | none : it.hasCurrent = false → At c cells it none

variable {e : Nat × Nat}

/-- The payload iterator can be moved to every visible cell. -/
theorem seek_at (h : c.Holding values cells) (hcur : it.hasCurrent = true)
    (hat : it.emptyBitmapIterator.At c.emptyBitmap k) (he : c.visible[k]? = some e) :
    ∃ it', it.seek c = .ok it' ∧ it'.At c cells (some k) := by
  have hlt := h.lt_cells (mem_of_getElem? he)
  rcases setPosition_at h.payload it.payloadIterator hlt.le with ⟨pi, hpi, hpos⟩
  rw [seek, (hat.positions he).2]
  simp only [bind, Except.bind, hpi, require_pos (hpos.not_atEnd hlt)]
  exact ⟨_, rfl, .cell hcur hat he hpos⟩

theorem getElem?_visible (hk : k < c.visible.length) : ∃ e, c.visible[k]? = some e :=
  ⟨_, getElem?_eq_getElem hk⟩

section

variable (h : c.Holding values cells)

include h

theorem restart_at (it : ConstIterator) :
    ∃ it', it.restart c = .ok it' ∧ it'.At c cells (c.cursor 0) := by
  rcases CellIterator.restart_at h.increasing it.emptyBitmapIterator with ⟨ebi, hebi, hat⟩
  rw [restart, hebi]
  simp only [bind, Except.bind]
  rcases OpenChunk.cursor_cases hat with ⟨e, he, hend, hcur⟩ | ⟨hend, hcur⟩
  · rw [hcur]
    simp only [hend]
    exact seek_at h rfl hat he
  · rw [hcur]
    simp only [hend]
    exact ⟨_, rfl, .none rfl⟩

theorem start_at : ∃ it, start c = .ok it ∧ it.At c cells (c.cursor 0) := by
  rcases Iterator.start_at h.payload with ⟨pi, hpi, _⟩
  have hcount : c.emptyBitmap.nNonEmptyElements ≤ cells.length := by
    rw [h.visible_spec.1.count]
    exact h.visible_spec.2.1.length_le.trans h.few
  rw [start, hpi]
  simp only [bind, Except.bind, h.payload.count, require_pos hcount]
  exact restart_at h _

/-- The reader visits the cells in order. -/
theorem next_at (hat : it.At c cells (some k)) :
    ∃ it', it.next c = .ok it' ∧ it'.At c cells (c.cursor (k + 1)) := by
  cases hat with
  | @cell _ e hcur hebi he hpi =>
    have hk : k < c.visible.length := (List.getElem?_eq_some_iff.mp he).1
    have hlt := h.lt_cells (mem_of_getElem? he)
    rcases CellIterator.next_at h.increasing hebi hk with ⟨ebi, hnext, hat⟩
    rw [next, require_pos hcur, hnext]
    simp only [bind, Except.bind]
    rcases OpenChunk.cursor_cases hat with ⟨f, hf, hend, hcur'⟩ | ⟨hend, hcur'⟩
    · rcases Iterator.next_at h.payload hpi hlt with ⟨pi, hpnext, hpat⟩
      rw [hcur', if_pos hend, if_pos (hpi.not_atEnd hlt), hpnext]
      simp only [(hat.positions hf).2]
      by_cases hmove : pi.atEnd c.payload ∨ pi.currPpos ≠ (f.2 : Int)
      · rw [if_pos hmove]
        exact seek_at h hcur hat hf
      · rw [if_neg hmove]
        push Not at hmove
        exact ⟨_, rfl, .cell hcur hat hf (hpat.of_currPpos hmove.1 hmove.2)⟩
    · rw [hcur', if_neg (not_not.mpr hend)]
      exact ⟨_, rfl, .none rfl⟩

/-- The position of a cell is found. -/
theorem setPosition_at (it : ConstIterator) (he : c.visible[k]? = some e) :
    ∃ it', it.setPosition c e.1 = .ok (true, it') ∧ it'.At c cells (some k) := by
  have hcontains := h.visible_spec.2.2 e (mem_of_getElem? he)
  rcases CellIterator.setPosition_at h.increasing it.emptyBitmapIterator he with ⟨ebi, hebi, hat⟩
  rw [setPosition, if_neg (not_not.mpr hcontains), hebi]
  have hseek : ∃ it', seek c { it with emptyBitmapIterator := ebi, hasCurrent := true } = .ok it' ∧
      it'.At c cells (some k) := seek_at h rfl hat he
  rcases hseek with ⟨it', hit', hat'⟩
  refine ⟨it', ?_, hat'⟩
  simp only [bind, Except.bind, hit']
  rfl

/-- Other positions are not found. -/
theorem setPosition_none (it : ConstIterator) (hnone : c.visible.lookup pos = none) :
    ∃ it', it.setPosition c pos = .ok (false, it') ∧ it'.At c cells none := by
  rw [setPosition]
  by_cases hcontains : c.contains pos = true
  · rcases CellIterator.setPosition_none h.increasing it.emptyBitmapIterator hnone with
      ⟨ebi, hebi, _⟩
    rw [if_neg (not_not.mpr hcontains), hebi]
    exact ⟨_, rfl, .none rfl⟩
  · rw [if_pos hcontains]
    exact ⟨_, rfl, .none rfl⟩

/-- The position and the value of the current cell. -/
theorem At.sees (hat : it.At c cells (some k)) (he : c.visible[k]? = some e) {v : Value}
    (hv : cells[e.2]? = some v) :
    it.getPosition c = .ok e.1 ∧ it.getItem c = .ok v := by
  cases hat with
  | cell hcur hebi he' hpi =>
    rw [he, Option.some.injEq] at he'
    subst he'
    rw [getPosition, getItem, require_pos hcur, require_pos hcur]
    exact ⟨(hebi.positions he).1, getItem_eq h.payload hpi hv⟩

end

theorem At.atEnd_eq {cur : Option Nat} (hat : it.At c cells cur) : it.atEnd = cur.isNone := by
  cases hat with
  | cell hcur => simp [atEnd, hcur]
  | none hcur => simp [atEnd, hcur]

end ConstIterator

end SciDB.Rle
