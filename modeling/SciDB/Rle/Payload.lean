import SciDB.Lib.Bisect
import SciDB.Lib.Bytes
import SciDB.Lib.Checked

/-!
# Run-length encoded payloads

A payload is a sequence of cells.  Its segments cover the cells in order; a
segment is a run of one value, a literal with a value for each cell, or a run of
nulls.  The values are stored in a byte buffer, in a form that depends on the
kind of element: one bit for a boolean, a fixed number of bytes, or an offset to
a part with values of variable size.

The definitions follow `include/array/RLESegment.h`, `include/array/RLE.h` and
`src/array/RLE.cpp` of a debug build.  Positions are signed 64-bit numbers and
sizes unsigned ones; both wrap around.  Reading past the buffer is a fault.

Main results:

- Theorem {lit}`Holds.getValueByPosition`: a payload that holds a sequence of cells
  returns them by position.
- Theorem {lit}`Iterator.advance_at`: an iterator visits them in order.
-/

namespace SciDB.Rle

open Bytes Bisect List

/-- The bytes of a value. -/
abbrev Datum := List UInt8

/-- The kinds of elements; `elemSize` is 0 for those of variable size. -/
inductive Kind where
  | boolean
  | fixed (elemSize : Nat) (pos : 0 < elemSize)
  | varying
deriving DecidableEq, Repr

/-- A value: a datum, or a null with its missing reason, a non-negative `int8_t`. -/
inductive Value where
  | null (reason : Fin 128)
  | datum (bytes : Datum)
deriving DecidableEq, Repr

/-- The data of a kind. -/
def Kind.Admits : Kind → Datum → Prop
  | .boolean, d => d = [0] ∨ d = [1]
  | .fixed elemSize _, d => d.length = elemSize
  | .varying, d => d.length < 2 ^ 32

/-- Nulls are of every kind. -/
def Kind.AdmitsValue (kind : Kind) : Value → Prop
  | .null _ => True
  | .datum d => kind.Admits d

instance : (kind : Kind) → (d : Datum) → Decidable (kind.Admits d)
  | .boolean, d => inferInstanceAs (Decidable (d = [0] ∨ d = [1]))
  | .fixed elemSize _, d => inferInstanceAs (Decidable (d.length = elemSize))
  | .varying, d => inferInstanceAs (Decidable (d.length < 2 ^ 32))

/-- Errors, with the numbers that their messages show. -/
inductive Fault where
  | assertion (text : String)
  | outOfBounds
  /-- `bad_static_cast` -/
  | badCast
  /-- `SCIDB_LE_CHUNK_TOO_POPULATED` -/
  | chunkTooPopulated (index max : Nat)
  /-- `SCIDB_LE_CHUNK_TOO_HUGE` -/
  | chunkTooHuge (size : Nat)
  /-- `SCIDB_LE_TRUNCATION` -/
  | truncation (size elemSize : Nat)
  /-- `SCIDB_LE_NO_CURRENT_ELEMENT` -/
  | noCurrentElement
  /-- `SCIDB_LE_OPERATION_FAILED` -/
  | operationFailed (call : String)
  /-- `SCIDB_LE_ASSIGNING_NULL_TO_NON_NULLABLE` -/
  | assigningNull
  /-- `SCIDB_LE_CHUNK_TOO_LARGE` -/
  | chunkTooLarge (size limit : Nat)
  /-- `SCIDB_LE_NO_ASSOCIATED_BITMAP_CHUNK` -/
  | noBitmapChunk
  /-- A loop does not end. -/
  | endless
deriving DecidableEq, Repr

/-- Conversion to `position_t`. -/
def toPosition (x : Int) : Int := x.bmod (2 ^ 64)

/-- Conversion to `size_t`. -/
def toSize (x : Int) : Nat := (x % 2 ^ 64).toNat

/-! ## Segments -/

/-- `rle::Segment` -/
structure Segment where
  pPosition : Int
  valueIndex : Nat
  same : Bool
  null : Bool
deriving DecidableEq, Repr

/-- `MAX_DATA_INDEX` -/
def maxDataIndex : Nat := 2 ^ 30 - 1

namespace Segment

/-- The default constructor. -/
def empty : Segment := ⟨0, 0, false, false⟩

/-- `setValueIndex` -/
def setValueIndex (s : Segment) (index : Nat) : Except Fault Segment :=
  require (index < 2 ^ 32) .badCast <|
  require (index ≤ maxDataIndex) (.chunkTooPopulated index maxDataIndex) <|
    .ok { s with valueIndex := index }

/-- `addToPPosition` -/
def addToPPosition (s : Segment) (incr : Nat) : Segment :=
  { s with pPosition := toPosition (s.pPosition + incr) }

end Segment

/-! ## Payloads -/

/-- `ConstRLEPayload`: `segs` are the segments with the terminating one, `data` the
bytes at `_payload`. -/
structure Payload where
  kind : Kind
  segs : List Segment
  nSegs : Nat
  data : List UInt8
  varOffs : Nat
deriving DecidableEq, Repr

variable (data : List UInt8)

/-- Read `len` bytes from `off` on. -/
def readBytes (off len : Nat) : Except Fault (List UInt8) :=
  require (off + len ≤ data.length) .outOfBounds <| .ok (slice data off len)

/-- Read one byte. -/
def readByte (off : Nat) : Except Fault UInt8 :=
  match data[off]? with
  | none => .error .outOfBounds
  | some b => .ok b

/-- The static `getSizeOfVarPartForOneDatum`: the sizes of the header and of the
datum at an address. -/
def getSizeOfVarPartForOneDatum (address : Nat) :
    Except Fault (Nat × Nat) := do
  let b ← readByte data address
  if b ≠ 0 then
    return (1, b.toNat)
  else
    let sizeDatum := ofLe (← readBytes data (address + 1) 4)
    require (sizeDatum = 0 ∨ sizeDatum > 0xFF) (.assertion "sizeDatum==0 || sizeDatum > 0xFF") <|
      .ok (5, sizeDatum)

/-- A boolean as a datum. -/
def boolDatum (b : Bool) : Datum :=
  if b then [1] else [0]

/-- The bit of a byte that `1 << (index & 7)` selects. -/
def bitAt (b : UInt8) (index : Nat) : Bool :=
  b.toNat.testBit (index % 8)

namespace Payload

variable (p : Payload)

/-- `_seg[i]` -/
def seg (i : Nat) : Except Fault Segment :=
  match p.segs[i]? with
  | none => .error .outOfBounds
  | some s => .ok s

/-- `count` -/
def count : Except Fault Nat :=
  if p.nSegs = 0 then .ok 0
  else do
    let s ← p.seg p.nSegs
    return toSize s.pPosition

/-- `getValueByIndex` -/
def getValueByIndex (index : Nat) : Except Fault Value :=
  require (index ≤ maxDataIndex) (.assertion "index <= rle::Segment::MAX_DATA_INDEX") do
    match p.kind with
    | .boolean =>
      let b ← readByte p.data (index / 8)
      return .datum (boolDatum (bitAt b index))
    | .varying =>
      let voff := ofLe (← readBytes p.data (index * 4) 4)
      let src := p.varOffs + voff
      let (sizeHeader, sizeDatum) ← getSizeOfVarPartForOneDatum p.data src
      return .datum (← readBytes p.data (src + sizeHeader) sizeDatum)
    | .fixed elemSize _ =>
      return .datum (← readBytes p.data (index * elemSize) elemSize)

/-- `value.setNull(safe_static_cast<Value::reason>(_seg[r].valueIndex()))` -/
def nullOf (s : Segment) : Except Fault Value :=
  if h : s.valueIndex < 128 then .ok (.null ⟨s.valueIndex, h⟩) else .error .badCast

/-- `getValueByPosition`; no value if the position lies behind the last cell. -/
def getValueByPosition (pos : Int) : Except Fault (Option Value) := do
  let r ← bisect (fun m => do
      let s ← p.seg (m + 1)
      return if s.pPosition ≤ pos then .lt else .gt) p.nSegs 0 p.nSegs
  if r = p.nSegs then
    return none
  else
    let s ← p.seg r
    if s.null then
      return some (← nullOf s)
    else
      let off := if s.same then 0 else pos - s.pPosition
      return some (← p.getValueByIndex (toSize (s.valueIndex + off)))

/-- `getRawVarValue`: the address and the size of a value. -/
def getRawVarValue (index : Nat) : Except Fault (Nat × Nat) :=
  require (index ≤ maxDataIndex) (.assertion "index <= rle::Segment::MAX_DATA_INDEX") do
    match p.kind with
    | .varying =>
      require (index < 2 ^ 32) .badCast do
        let voff := ofLe (← readBytes p.data (index * 4) 4)
        let src := p.varOffs + voff
        let (sizeHeader, size) ← getSizeOfVarPartForOneDatum p.data src
        return (src + sizeHeader, size)
    | .boolean => return (index / 8, 1)
    | .fixed elemSize _ => return (index * elemSize, elemSize)

/-- `findSegment` -/
def findSegment (pos : Int) : Except Fault Nat :=
  bisect (fun m => do
    let s ← p.seg (m + 1)
    return if s.pPosition = pos then .eq else if s.pPosition < pos then .lt else .gt)
      p.nSegs 0 p.nSegs

end Payload

/-! ## Iterators -/

/-- `ConstRLEPayload::iterator`: the current segment and position. -/
structure Iterator where
  currSeg : Nat
  currPpos : Int
deriving DecidableEq, Repr

namespace Iterator

variable (p : Payload)

/-- `end` -/
def atEnd (it : Iterator) : Prop :=
  it.currSeg ≥ p.nSegs

instance (p : Payload) (it : Iterator) : Decidable (it.atEnd p) :=
  inferInstanceAs (Decidable (_ ≥ _))

/-- `*_cs`, once `!end()` has been asserted. -/
def segment (it : Iterator) : Except Fault Segment :=
  require (¬ it.atEnd p) (.assertion "!end()") <| p.seg it.currSeg

/-- Move to the start of a segment, if there is one. -/
def toSegment (it : Iterator) (i : Nat) : Except Fault Iterator :=
  let it := { it with currSeg := i }
  if it.atEnd p then .ok it
  else do
    let s ← p.seg i
    return { it with currPpos := s.pPosition }

/-- The constructor, which calls `restart`. -/
def start : Except Fault Iterator :=
  toSegment p ⟨0, -1⟩ 0

/-- `getSegLength` -/
def getSegLength (it : Iterator) : Except Fault Nat := do
  let s ← it.segment p
  let next ← p.seg (it.currSeg + 1)
  return toSize (next.pPosition - s.pPosition)

/-- `available` -/
def available (it : Iterator) : Except Fault Nat := do
  let s ← it.segment p
  let segLength ← it.getSegLength p
  return toSize (segLength - it.currPpos + s.pPosition)

/-- The index of the current value, as `getItem` and `getFixedValues` compute it. -/
def valueIndex (it : Iterator) (s : Segment) : Nat :=
  if s.same then s.valueIndex else toSize (s.valueIndex + it.currPpos - s.pPosition)

/-- `getItem` -/
def getItem (it : Iterator) : Except Fault Value := do
  let s ← it.segment p
  if s.null then
    Payload.nullOf s
  else
    let index := it.valueIndex s
    let (address, valSize) ← p.getRawVarValue index
    match p.kind with
    | .boolean =>
      let b ← readByte p.data address
      return .datum (boolDatum (bitAt b index))
    | _ => return .datum (← readBytes p.data address valSize)

/-- `operator++` -/
def next (it : Iterator) : Except Fault Iterator := do
  let s ← it.segment p
  let segLength ← it.getSegLength p
  if it.currPpos + 1 < toPosition (s.pPosition + segLength) then
    return { it with currPpos := it.currPpos + 1 }
  else
    it.toSegment p (it.currSeg + 1)

/-- `setPosition` -/
def setPosition (it : Iterator) (pPos : Int) : Except Fault Iterator := do
  let i ← p.findSegment pPos
  let it := { it with currSeg := i }
  if it.atEnd p then
    return it
  else
    let s ← p.seg i
    require (s.pPosition ≤ pPos) (.assertion "getSegment(_currSeg).pPosition() <= pPos") <|
      .ok { it with currPpos := pPos }

/-- `operator+=` -/
def advance (it : Iterator) (count : Nat) : Except Fault Iterator := do
  let s ← it.segment p
  let segLength : Nat ← it.getSegLength p
  let it := { it with currPpos := toPosition (it.currPpos + count) }
  if it.currPpos - s.pPosition ≥ toPosition segLength then
    let it := { it with currSeg := it.currSeg + 1 }
    if ¬ it.atEnd p then
      let s ← p.seg it.currSeg
      let segLength : Nat ← it.getSegLength p
      if it.currPpos - s.pPosition < toPosition segLength then
        return it
      else
        it.setPosition p it.currPpos
    else
      it.setPosition p it.currPpos
  else
    return it

end Iterator

/-! ## What a payload holds -/

/-- The value of the `k`-th cell of a segment. -/
def Segment.cellAt (values : List Datum) (s : Segment) (k : Nat) : Option Value :=
  if s.null then
    if h : s.valueIndex < 128 then some (.null ⟨s.valueIndex, h⟩) else none
  else
    values[if s.same then s.valueIndex else s.valueIndex + k]?.map .datum

/-- The segments cover the cells from position 0 on, one after the other. -/
inductive Covers (values : List Datum) : List Segment → List Value → Prop where
  | nil : Covers values [] []
  | snoc {segs : List Segment} {s : Segment} {cells chunk : List Value} :
      Covers values segs cells → s.pPosition = cells.length → chunk ≠ [] →
      (∀ k v, chunk[k]? = some v → s.cellAt values k = some v) →
      Covers values (segs ++ [s]) (cells ++ chunk)

/-- The payload holds the cells. -/
structure Holds (p : Payload) (values : List Datum) (cells : List Value) : Prop where
  few_cells : cells.length < 2 ^ 63
  few_values : values.length ≤ 2 ^ 30
  admits : ∀ d ∈ values, p.kind.Admits d
  /-- Every stored value can be read. -/
  reads : ∀ i d, values[i]? = some d → p.getValueByIndex i = .ok (.datum d)
  /-- The terminating segment starts behind the last cell. -/
  segments : ∃ (segs : List Segment) (term : Segment), p.segs = segs ++ [term] ∧
    p.nSegs = segs.length ∧
    Covers values segs cells ∧ term.pPosition = cells.length

variable {s term : Segment} {k x i pos : Nat} {v v : Value} {values : List Datum} {p : Payload} {d : Datum}

theorem Segment.cellAt_append (h : s.cellAt values k = some v)
    (more : List Datum) :
    s.cellAt (values ++ more) k = some v := by
  unfold Segment.cellAt at h ⊢
  by_cases hnull : s.null
  · rw [if_pos hnull] at h ⊢
    exact h
  · rw [if_neg hnull, Option.map_eq_some_iff] at h ⊢
    rcases h with ⟨d, hd, heq⟩
    exact ⟨d, List.getElem?_append_left (List.getElem?_eq_some_iff.mp hd).1 ▸ hd, heq⟩

namespace Covers

variable {values : List Datum} {segs : List Segment} {cells : List Value}

variable (h : Covers values segs cells)

include h

/-- Storing more values changes no cell. -/
theorem mono (more : List Datum) : Covers (values ++ more) segs cells := by
  induction h with
  | nil => exact .nil
  | snoc _ hpos hne hcell ih =>
    exact ih.snoc hpos hne fun k v hv => Segment.cellAt_append (hcell k v hv) more

theorem pPosition_lt : ∀ s ∈ segs, 0 ≤ s.pPosition ∧ s.pPosition < cells.length := by
  induction h with
  | nil => simp
  | @snoc segs s cells chunk _ hpos hne _ ih =>
    have hlen : 0 < chunk.length := length_pos_iff.mpr hne
    intro s' hs'
    rw [length_append]
    rcases mem_append.mp hs' with h | h
    · have := ih s' h
      omega
    · rw [mem_singleton.mp h]
      omega

/-- The segments start one after the other. -/
theorem sorted (hterm : term.pPosition = cells.length) :
    (segs ++ [term]).Pairwise (fun s s' => s.pPosition < s'.pPosition) := by
  induction h generalizing term with
  | nil => exact pairwise_singleton _ _
  | snoc h hpos hne hcell ih =>
    refine pairwise_append.mpr ⟨ih hpos, pairwise_singleton _ _, ?_⟩
    intro s hs s' hs'
    rw [mem_singleton.mp hs', hterm]
    exact ((h.snoc hpos hne hcell).pPosition_lt s hs).2

/-- Every cell lies in a segment, with the terminating one behind the last. -/
theorem locate (hterm : term.pPosition = cells.length)
    (hv : cells[pos]? = some v) :
    ∃ (i : Nat) (s s' : Segment), i < segs.length ∧ (segs ++ [term])[i]? = some s ∧
      (segs ++ [term])[i + 1]? = some s' ∧ s.pPosition ≤ pos ∧ pos < s'.pPosition ∧
      s.cellAt values (pos - s.pPosition).toNat = some v := by
  induction h generalizing term with
  | nil => simp at hv
  | @snoc segs s cells chunk h hpos hne hcell ih =>
    rw [length_append] at hterm ⊢
    by_cases hlt : pos < cells.length
    · -- the new segment terminates those before it
      rw [getElem?_append_left hlt] at hv
      rcases ih hpos hv with ⟨i, s₁, s₂, hi, hs₁, hs₂, hcell'⟩
      refine ⟨i, s₁, s₂, Nat.lt_add_right _ hi, ?_, ?_, hcell'⟩
      · rw [getElem?_append_left (List.getElem?_eq_some_iff.mp hs₁).1, hs₁]
      · rw [getElem?_append_left (List.getElem?_eq_some_iff.mp hs₂).1, hs₂]
    · rw [getElem?_append_right (by omega)] at hv
      have hk : pos - cells.length < chunk.length := (List.getElem?_eq_some_iff.mp hv).1
      refine ⟨segs.length, s, term, by simp, by simp, by simp, by omega, by omega, ?_⟩
      rw [show (pos - s.pPosition).toNat = pos - cells.length by omega]
      exact hcell _ v hv

end Covers

theorem toSize_natCast (h : x < 2 ^ 64) : toSize x = x := by
  unfold toSize
  omega

theorem toPosition_natCast (h : x < 2 ^ 63) : toPosition x = x := by
  exact Int.bmod_eq_of_le (by omega) (by omega)

/-- The position lies in the `i`-th segment, which is `s` and followed by `s'`. -/
structure Inside (p : Payload) (i : Nat) (s s' : Segment) (pos : Nat) : Prop where
  lt : i < p.nSegs
  seg : p.segs[i]? = some s
  seg_succ : p.segs[i + 1]? = some s'
  le : s.pPosition ≤ pos
  lt_succ : pos < s'.pPosition

namespace Holds

variable {p : Payload} {values : List Datum} {cells : List Value}

theorem sorted (h : Holds p values cells) :
    p.segs.Pairwise (fun s s' => s.pPosition < s'.pPosition) := by
  rcases h.segments with ⟨segs, term, hsegs, _, hcovers, hterm⟩
  rw [hsegs]
  exact hcovers.sorted hterm

theorem length_segs (h : Holds p values cells) : p.segs.length = p.nSegs + 1 := by
  rcases h.segments with ⟨segs, term, hsegs, hn, _, _⟩
  rw [hsegs, hn]
  simp

variable {i j pos : Nat} {s s' : Segment} {v : Value}

variable (h : Holds p values cells)

include h

/-- Segments further to the right start later. -/
theorem pPosition_lt (hij : i < j) (hi : p.segs[i]? = some s) (hj : p.segs[j]? = some s') :
    s.pPosition < s'.pPosition := by
  rcases List.getElem?_eq_some_iff.mp hi with ⟨hi', rfl⟩
  rcases List.getElem?_eq_some_iff.mp hj with ⟨hj', rfl⟩
  exact pairwise_iff_getElem.mp h.sorted i j hi' hj' hij

theorem pPosition_le (hij : i ≤ j) (hi : p.segs[i]? = some s) (hj : p.segs[j]? = some s') :
    s.pPosition ≤ s'.pPosition := by
  rcases hij.lt_or_eq with hlt | rfl
  · exact (h.pPosition_lt hlt hi hj).le
  · rw [hi, Option.some.injEq] at hj
    rw [hj]

theorem exists_seg (hi : i ≤ p.nSegs) : ∃ s, p.segs[i]? = some s :=
  ⟨_, getElem?_eq_getElem (by rw [h.length_segs]; omega)⟩

/-- All positions are those of cells. -/
theorem pPosition_bounds (hs : p.segs[i]? = some s) :
    0 ≤ s.pPosition ∧ s.pPosition ≤ cells.length := by
  rcases h.segments with ⟨segs, term, hsegs, _, hcovers, hterm⟩
  have hmem := mem_of_getElem? hs
  rw [hsegs] at hmem
  rcases mem_append.mp hmem with h' | h'
  · have := hcovers.pPosition_lt s h'
    omega
  · rw [mem_singleton.mp h']
    omega

theorem last (hs : p.segs[p.nSegs]? = some s) : s.pPosition = cells.length := by
  rcases h.segments with ⟨segs, term, hsegs, hn, _, hterm⟩
  rw [hsegs, hn, getElem?_concat_length, Option.some.injEq] at hs
  rw [← hs, hterm]

/-- A position lies in one segment only. -/
theorem inside_unique {t t' : Segment} (hi : Inside p i s s' pos) (hj : Inside p j t t' pos) :
    i = j := by
  rcases Nat.lt_trichotomy i j with hlt | rfl | hlt
  · have := h.pPosition_le (show i + 1 ≤ j from hlt) hi.seg_succ hj.seg
    have := hi.lt_succ
    have := hj.le
    omega
  · rfl
  · have := h.pPosition_le (show j + 1 ≤ i from hlt) hj.seg_succ hi.seg
    have := hj.lt_succ
    have := hi.le
    omega

/-- Every cell lies in a segment, which gives its value. -/
theorem locate (hv : cells[pos]? = some v) :
    ∃ i s s', Inside p i s s' pos ∧ s.cellAt values (pos - s.pPosition).toNat = some v := by
  rcases h.segments with ⟨segs, term, hsegs, hn, hcovers, hterm⟩
  rcases hcovers.locate hterm hv with ⟨i, s, s', hi, hs, hs', hle, hlt, hcell⟩
  rw [← hsegs] at hs hs'
  exact ⟨i, s, s', ⟨hn ▸ hi, hs, hs', hle, hlt⟩, hcell⟩

/-- The segment around a position gives the cell there. -/
theorem cell (hi : Inside p i s s' pos) (hv : cells[pos]? = some v) :
    s.cellAt values (pos - s.pPosition).toNat = some v := by
  rcases h.locate hv with ⟨j, t, t', hj, hcell⟩
  have hij := h.inside_unique hi hj
  subst hij
  have hst : s = t := Option.some.inj (hi.seg.symm.trans hj.seg)
  rw [hst]
  exact hcell

end Holds

theorem Payload.seg_eq (h : p.segs[i]? = some s) : p.seg i = .ok s := by
  rw [Payload.seg, h]

/-- The cell of a segment without nulls is a stored value. -/
theorem Segment.cellAt_eq (h : s.cellAt values k = some v) :
    (s.null = true ∧ Payload.nullOf s = .ok v) ∨
      (s.null = false ∧ ∃ d, v = .datum d ∧
        values[if s.same then s.valueIndex else s.valueIndex + k]? = some d) := by
  unfold Segment.cellAt at h
  cases hnull : s.null with
  | true =>
    left
    rw [if_pos hnull] at h
    unfold Payload.nullOf
    split at h
    · rename_i hlt
      rw [dif_pos hlt, ← Option.some.inj h]
      exact ⟨rfl, rfl⟩
    · cases h
  | false =>
    right
    rw [if_neg (by simp [hnull]), Option.map_eq_some_iff] at h
    rcases h with ⟨d, hd, heq⟩
    exact ⟨rfl, d, heq.symm, hd⟩

namespace Holds

variable {p : Payload} {values : List Datum} {cells : List Value}

variable (h : Holds p values cells)

include h

/-- The index of a stored value stays small. -/
theorem index_lt (hd : values[i]? = some d) : i < 2 ^ 30 :=
  lt_of_lt_of_le (List.getElem?_eq_some_iff.mp hd).1 h.few_values

theorem count : p.count = .ok cells.length := by
  rw [Payload.count]
  by_cases hzero : p.nSegs = 0
  · rcases h.segments with ⟨segs, term, _, hn, hcovers, _⟩
    have hnil : segs = [] := length_eq_zero_iff.mp (hn ▸ hzero)
    subst hnil
    rw [if_pos hzero]
    generalize hsegs : ([] : List Segment) = segs at hcovers
    cases hcovers with
    | nil => rfl
    | snoc => simp at hsegs
  · rcases h.exists_seg le_rfl with ⟨s, hs⟩
    rw [if_neg hzero, Payload.seg_eq hs]
    have := h.few_cells
    show Except.ok (toSize s.pPosition) = _
    rw [h.last hs, toSize_natCast (by omega)]

/-- Reading a cell by its position. -/
theorem getValueByPosition (hv : cells[pos]? = some v) :
    p.getValueByPosition pos = .ok (some v) := by
  rcases h.locate hv with ⟨i, s, s', hi, hcell⟩
  have hsearch : bisect (fun m => do
      let s ← p.seg (m + 1)
      return if s.pPosition ≤ (pos : Int) then .lt else .gt) p.nSegs 0 p.nSegs = .ok i := by
    apply bisect_eq (Nat.zero_le i) hi.lt.le le_rfl
    · intro m hm
      left
      rcases h.exists_seg (show m + 1 ≤ p.nSegs from hm.trans_le hi.lt.le) with ⟨t, ht⟩
      have := h.pPosition_le (show m + 1 ≤ i from hm) ht hi.seg
      rw [Payload.seg_eq ht]
      show Except.ok (if t.pPosition ≤ (pos : Int) then _ else _) = _
      rw [if_pos (this.trans hi.le)]
    · intro m hm hmn
      rcases h.exists_seg (show m + 1 ≤ p.nSegs from hmn) with ⟨t, ht⟩
      have := h.pPosition_le (by omega) hi.seg_succ ht
      rw [Payload.seg_eq ht]
      show Except.ok (if t.pPosition ≤ (pos : Int) then _ else _) = _
      rw [if_neg (by have := hi.lt_succ; omega)]
  rw [Payload.getValueByPosition, hsearch]
  simp only [bind, Except.bind, if_neg hi.lt.ne, Payload.seg_eq hi.seg]
  rcases Segment.cellAt_eq hcell with ⟨hnull, hvalue⟩ | ⟨hnull, d, rfl, hd⟩
  · rw [if_pos hnull, hvalue]
    rfl
  · have hindex : toSize (s.valueIndex + if s.same then 0 else pos - s.pPosition) =
        if s.same then s.valueIndex else s.valueIndex + (pos - s.pPosition).toNat := by
      have hlt := h.index_lt hd
      have := hi.le
      rw [← toSize_natCast (lt_trans hlt (by norm_num))]
      congr 1
      split <;> omega
    rw [if_neg (by simp [hnull]), hindex, h.reads _ d hd]
    rfl

end Holds

/-! ## Iterating -/

/-- The iterator stands at a position, or at the end behind the last cell. -/
def Iterator.At (p : Payload) (cells : List Value) (it : Iterator) (pos : Nat) : Prop :=
  (∃ s s', Inside p it.currSeg s s' pos ∧ it.currPpos = pos) ∨ (it.atEnd p ∧ pos = cells.length)

/-- Both ways to read a value read the same. -/
theorem Payload.getRawVarValue_eq {index : Nat}
    (h : p.getValueByIndex index = .ok (.datum d)) :
    (do
      let (address, valSize) ← p.getRawVarValue index
      match p.kind with
      | .boolean =>
        let b ← readByte p.data address
        return Value.datum (boolDatum (bitAt b index))
      | _ => return Value.datum (← readBytes p.data address valSize)) = .ok (.datum d) := by
  rw [Payload.getValueByIndex, require_eq_ok] at h
  rcases h with ⟨hindex, h⟩
  have hlt : index < 2 ^ 32 := by
    unfold maxDataIndex at hindex
    omega
  rw [Payload.getRawVarValue, require_pos hindex]
  cases hkind : p.kind with
  | boolean =>
    rw [hkind] at h
    exact h
  | varying =>
    rw [hkind] at h
    simp only [require_pos hlt]
    rcases bind_eq_ok.mp h with ⟨voff, hvoff, h⟩
    rcases bind_eq_ok.mp h with ⟨sizes, hsizes, h⟩
    simp only [hvoff, hsizes, bind, Except.bind] at h ⊢
    exact h
  | fixed elemSize pos =>
    rw [hkind] at h
    exact h

namespace Iterator

variable {p : Payload} {values : List Datum} {cells : List Value} {it : Iterator} {pos : Nat}

variable {s s' : Segment}

theorem segment_eq (h : Inside p it.currSeg s s' pos) : it.segment p = .ok s := by
  rw [segment, require_pos (show ¬ it.atEnd p from Nat.not_le.mpr h.lt), Payload.seg_eq h.seg]

theorem At.not_atEnd (h : it.At p cells pos) (hlt : pos < cells.length) : ¬ it.atEnd p := by
  rcases h with ⟨s, s', hin, _⟩ | ⟨_, heq⟩
  · exact Nat.not_le.mpr hin.lt
  · omega

theorem At.of_currPpos {q : Nat} (h : it.At p cells pos) (hend : ¬ it.atEnd p)
    (hq : it.currPpos = q) : it.At p cells q := by
  rcases h with ⟨s, s', hin, hpos⟩ | ⟨hat, _⟩
  · obtain rfl : pos = q := by omega
    exact .inl ⟨s, s', hin, hpos⟩
  · exact absurd hat hend

variable (hp : Holds p values cells)

include hp

/-- The length of the segment around a cell. -/
theorem getSegLength_eq (h : Inside p it.currSeg s s' pos) :
    ∃ len : Nat, it.getSegLength p = .ok len ∧ s.pPosition + len = s'.pPosition := by
  have h₁ := hp.pPosition_bounds h.seg
  have h₂ := hp.pPosition_bounds h.seg_succ
  have h₃ := h.le
  have h₄ := h.lt_succ
  have h₅ := hp.few_cells
  refine ⟨(s'.pPosition - s.pPosition).toNat, ?_, by omega⟩
  rw [getSegLength, segment_eq h, Payload.seg_eq h.seg_succ]
  show Except.ok (toSize (s'.pPosition - s.pPosition)) = _
  rw [← toSize_natCast (show (s'.pPosition - s.pPosition).toNat < 2 ^ 64 by omega)]
  congr 2
  omega

/-- The cells from a position to the end of its segment. -/
theorem available_eq (h : Inside p it.currSeg s s' pos) (hpos : it.currPpos = pos) :
    it.available p = .ok (s'.pPosition - pos).toNat := by
  rcases getSegLength_eq hp h with ⟨len, hlen, hstop⟩
  have h₂ := h.lt_succ
  have h₃ := hp.pPosition_bounds h.seg_succ
  have h₄ := hp.few_cells
  rw [available, segment_eq h]
  simp only [bind, Except.bind, hlen]
  rw [← toSize_natCast (show (s'.pPosition - pos).toNat < 2 ^ 64 by omega)]
  congr 2
  omega

/-- The value an iterator sees. -/
theorem getItem_eq (h : it.At p cells pos) (hv : cells[pos]? = some v) : it.getItem p = .ok v := by
  have hlt : pos < cells.length := (List.getElem?_eq_some_iff.mp hv).1
  rcases h with ⟨s, s', h, hpos⟩ | ⟨_, hend⟩
  · rw [getItem, segment_eq h]
    simp only [bind, Except.bind]
    rcases Segment.cellAt_eq (hp.cell h hv) with ⟨hnull, hvalue⟩ | ⟨hnull, d, rfl, hd⟩
    · rw [if_pos hnull, hvalue]
    · have hindex : it.valueIndex s =
          if s.same then s.valueIndex else s.valueIndex + (pos - s.pPosition).toNat := by
        have hlt := hp.index_lt hd
        have := h.le
        unfold valueIndex
        by_cases hsame : s.same
        · rw [if_pos hsame, if_pos hsame]
        · rw [if_neg hsame] at hlt
          rw [if_neg hsame, if_neg hsame, ← toSize_natCast (lt_trans hlt (by norm_num))]
          congr 1
          omega
      rw [if_neg (by simp [hnull]), hindex]
      exact Payload.getRawVarValue_eq (hp.reads _ d hd)
  · omega

theorem toSegment_at (hs : p.segs[i]? = some s) (hpos : s.pPosition = pos)
    (it : Iterator) : ∃ it', it.toSegment p i = .ok it' ∧ it'.At p cells pos := by
  unfold toSegment
  have hi : i < p.nSegs + 1 := hp.length_segs ▸ (List.getElem?_eq_some_iff.mp hs).1
  by_cases hend : i = p.nSegs
  · have hat : atEnd p { it with currSeg := i } := hend.ge
    refine ⟨_, if_pos hat, .inr ⟨hat, ?_⟩⟩
    have := hp.last (hend ▸ hs)
    omega
  · have hlt : i < p.nSegs := by omega
    have hat : ¬ atEnd p { it with currSeg := i } := Nat.not_le.mpr hlt
    rcases hp.exists_seg (show i + 1 ≤ p.nSegs from hlt) with ⟨s', hs'⟩
    have hnext := hp.pPosition_lt (Nat.lt_succ_self i) hs hs'
    simp only [if_neg hat, Payload.seg_eq hs]
    exact ⟨_, rfl, .inl ⟨s, s', ⟨hlt, hs, hs', hpos.le, hpos ▸ hnext⟩, hpos⟩⟩

/-- A new iterator stands at the first cell. -/
theorem start_at : ∃ it, start p = .ok it ∧ it.At p cells 0 := by
  rcases hp.exists_seg (Nat.zero_le _) with ⟨s, hs⟩
  refine toSegment_at hp hs ?_ _
  -- the first cell, if there is one, lies in the first segment
  have hbounds := hp.pPosition_bounds hs
  by_contra hne
  have hcell : cells[0]? = some (cells.get ⟨0, by omega⟩) := getElem?_eq_getElem _
  rcases hp.locate hcell with ⟨i, t, t', hi, _⟩
  have hle := hp.pPosition_le (Nat.zero_le i) hs hi.seg
  have hle' := hi.le
  omega

/-- One step forward. -/
theorem next_at (h : it.At p cells pos) (hpos : pos < cells.length) :
    ∃ it', it.next p = .ok it' ∧ it'.At p cells (pos + 1) := by
  rcases h with ⟨s, s', h, hcur⟩ | ⟨_, hend⟩
  · rcases getSegLength_eq hp h with ⟨len, hlen, hstop⟩
    have hbounds := hp.pPosition_bounds h.seg_succ
    have hfew := hp.few_cells
    have hposition : toPosition (s.pPosition + len) = s'.pPosition := by
      rw [hstop, ← Int.toNat_of_nonneg hbounds.1]
      exact toPosition_natCast (by omega)
    rw [next, segment_eq h]
    simp only [bind, Except.bind, hlen, hposition, hcur]
    by_cases hlt : (pos : Int) + 1 < s'.pPosition
    · rw [if_pos hlt]
      refine ⟨_, rfl, .inl ⟨s, s', ⟨h.lt, h.seg, h.seg_succ, ?_, ?_⟩, ?_⟩⟩
      · have := h.le
        omega
      · exact hlt
      · rfl
    · rw [if_neg hlt]
      have := h.lt_succ
      exact toSegment_at hp h.seg_succ (by omega) it
  · omega

/-- The search for a segment, also for the position behind the last cell. -/
theorem findSegment_eq (hi : i ≤ p.nSegs) (hs : p.segs[i]? = some s)
    (hle : s.pPosition ≤ pos) (hlt : ∀ m t, i < m → p.segs[m]? = some t → pos < t.pPosition) :
    p.findSegment pos = .ok i := by
  apply bisect_eq (Nat.zero_le i) hi le_rfl
  · intro m hm
    rcases hp.exists_seg (show m + 1 ≤ p.nSegs from hm.trans_le hi) with ⟨t, ht⟩
    have hts := hp.pPosition_le (show m + 1 ≤ i from hm) ht hs
    rw [Payload.seg_eq ht]
    show Except.ok (if t.pPosition = (pos : Int) then Ordering.eq else _) = _ ∨
      Except.ok (if t.pPosition = (pos : Int) then Ordering.eq else _) = _ ∧ _
    by_cases heq : t.pPosition = pos
    · right
      refine ⟨by rw [if_pos heq], ?_⟩
      by_contra hne
      have := hp.pPosition_lt (by omega) ht hs
      omega
    · left
      rw [if_neg heq, if_pos (by omega)]
  · intro m hm hmn
    rcases hp.exists_seg (show m + 1 ≤ p.nSegs from hmn) with ⟨t, ht⟩
    have := hlt (m + 1) t (by omega) ht
    rw [Payload.seg_eq ht]
    show Except.ok (if t.pPosition = (pos : Int) then Ordering.eq else _) = _
    rw [if_neg (by omega), if_neg (by omega)]

theorem setPosition_at (it : Iterator) (hpos : pos ≤ cells.length) :
    ∃ it', it.setPosition p pos = .ok it' ∧ it'.At p cells pos := by
  unfold setPosition
  by_cases hlt : pos < cells.length
  · have hcell : cells[pos]? = some (cells.get ⟨pos, hlt⟩) := getElem?_eq_getElem _
    rcases hp.locate hcell with ⟨i, s, s', hi, _⟩
    have hfind := findSegment_eq hp hi.lt.le hi.seg hi.le (fun m t hm ht =>
      lt_of_lt_of_le hi.lt_succ (hp.pPosition_le (show i + 1 ≤ m from hm) hi.seg_succ ht))
    have hat : ¬ atEnd p { it with currSeg := i } := Nat.not_le.mpr hi.lt
    simp only [hfind, bind, Except.bind, if_neg hat, Payload.seg_eq hi.seg, require_pos hi.le]
    exact ⟨_, rfl, .inl ⟨s, s', hi, rfl⟩⟩
  · rcases hp.exists_seg le_rfl with ⟨s, hs⟩
    have hlast := hp.last hs
    have hfind : p.findSegment pos = .ok p.nSegs := by
      apply findSegment_eq hp le_rfl hs (by omega)
      intro m t hm ht
      have := (List.getElem?_eq_some_iff.mp ht).1
      rw [hp.length_segs] at this
      omega
    have hat : atEnd p { it with currSeg := p.nSegs } := le_rfl
    simp only [hfind, bind, Except.bind, if_pos hat]
    exact ⟨_, rfl, .inr ⟨hat, by omega⟩⟩

/-- Several steps forward at once. -/
theorem advance_at (h : it.At p cells pos) (hpos : pos < cells.length) {c : Nat}
    (hc : pos + c ≤ cells.length) :
    ∃ it', it.advance p c = .ok it' ∧ it'.At p cells (pos + c) := by
  rcases h with ⟨s, s', h, hcur⟩ | ⟨_, hend⟩
  · rcases getSegLength_eq hp h with ⟨len, hlen, hstop⟩
    have hfew := hp.few_cells
    have hbounds := hp.pPosition_bounds h.seg_succ
    have hbounds₀ := hp.pPosition_bounds h.seg
    have hle := h.le
    have hmove : toPosition ((pos : Int) + c) = (pos + c : Nat) := toPosition_natCast (by omega)
    have hlen' : toPosition len = len := toPosition_natCast (by omega)
    rw [advance, segment_eq h]
    simp only [bind, Except.bind, hlen, hcur, hmove, hlen']
    by_cases hout : ((pos + c : Nat) : Int) - s.pPosition ≥ len
    · rw [if_pos hout]
      split
      · rename_i hat
        have hlt : it.currSeg + 1 < p.nSegs := Nat.not_le.mp hat
        rcases hp.exists_seg (show it.currSeg + 1 + 1 ≤ p.nSegs from hlt) with ⟨s'', hs''⟩
        have hs's'' := hp.pPosition_lt (Nat.lt_succ_self _) h.seg_succ hs''
        have hbounds'' := hp.pPosition_bounds hs''
        have hinside : Inside p (it.currSeg + 1) s' s'' s'.pPosition.toNat :=
          ⟨hlt, h.seg_succ, hs'', by omega, by omega⟩
        rcases @getSegLength_eq p values cells ⟨it.currSeg + 1, (pos + c : Nat)⟩ _ s' s'' hp hinside
          with ⟨len', hlen', hstop'⟩
        rw [Payload.seg_eq h.seg_succ]
        simp only [hlen', toPosition_natCast (show len' < 2 ^ 63 by omega)]
        by_cases hin : ((pos + c : Nat) : Int) - s'.pPosition < len'
        · rw [if_pos hin]
          exact ⟨_, rfl, .inl ⟨s', s'', ⟨hlt, h.seg_succ, hs'', by omega, by omega⟩, rfl⟩⟩
        · rw [if_neg hin]
          exact setPosition_at hp _ hc
      · exact setPosition_at hp _ hc
    · rw [if_neg hout]
      exact ⟨_, rfl, .inl ⟨s, s', ⟨h.lt, h.seg, h.seg_succ, by omega, by omega⟩, rfl⟩⟩
  · omega

end Iterator

end SciDB.Rle
