import SciDB.Lib.Checked
import SciDB.Lib.Odometer

/-!
# Chunk locations

An array distribution maps each chunk position of the grid to an instance:
`getPrimaryChunkLocation` of the hash, by-row, by-column, row-cyclic and
column-cyclic distributions in `src/array/ArrayDistribution.cpp`.

Coordinates are signed 64-bit numbers in the source and integers here; every
signed operation is checked, because its overflow is undefined behaviour.
Unsigned operations wrap around.

Main results:

- Theorem {lit}`mem_chunkStarts`: the chunk positions of one dimension.
- Theorem {lit}`step_enumerates`: the increment of the source enumerates them if
  the one past the last position still is a coordinate.
- Theorem {lit}`location_ok`: every position of the grid has an instance below the
  number of instances, unless the rounding in the block distributions wraps.
-/

namespace SciDB.Distribution

open Odometer List

/-! ## Dimensions and positions -/

/-- What can go wrong while chunks are located or enumerated. -/
inductive Fault
  /-- a signed 64-bit operation left its range -/
  | signedOverflow
  | divisionByZero
  /-- a failed `SCIDB_ASSERT` or `ASSERT_EXCEPTION` -/
  | assertion (text : String)
  /-- `SCIDB_LE_WRONG_NUMBER_OF_DIMENSIONS` -/
  | wrongNumberOfDimensions
  /-- an access past the end of a coordinate or dimension list -/
  | outOfRange
deriving DecidableEq, Repr

/-- The result of a signed 64-bit operation. -/
def int64 (x : Int) : Except Fault Int :=
  if -2 ^ 63 ≤ x ∧ x < 2 ^ 63 then .ok x else .error .signedOverflow

theorem int64_of_mem {x : Int} (h : -2 ^ 63 ≤ x ∧ x < 2 ^ 63) : int64 x = .ok x :=
  if_pos h

/-- Conversion of a signed to an unsigned 64-bit number. -/
def toUInt64 (x : Int) : Nat :=
  (x % 2 ^ 64).toNat

/-- A dimension with the bounds that `DimensionDesc::validate` and the parser
check: coordinates lie strictly inside `CoordinateBounds`, the chunk interval is
a positive `int64_t`. -/
structure DimensionDesc where
  startMin : Int
  endMax : Int
  chunkInterval : Int
  getMin_le : -(2 ^ 62 - 1) ≤ startMin
  start_le_end : startMin ≤ endMax
  le_getMax : endMax ≤ 2 ^ 62 - 1
  interval_pos : 0 < chunkInterval
  interval_lt : chunkInterval < 2 ^ 63

/-- A dimension from numbers that pass the checks. -/
def DimensionDesc.ofBounds (startMin endMax chunkInterval : Int)
    (h : -(2 ^ 62 - 1) ≤ startMin ∧ startMin ≤ endMax ∧ endMax ≤ 2 ^ 62 - 1 ∧
      0 < chunkInterval ∧ chunkInterval < 2 ^ 63) : DimensionDesc :=
  ⟨startMin, endMax, chunkInterval, h.1, h.2.1, h.2.2.1, h.2.2.2.1, h.2.2.2.2⟩

/-- `getLength` -/
def DimensionDesc.getLength (d : DimensionDesc) : Nat :=
  (d.endMax - d.startMin + 1).toNat

/-- A position along one dimension where a chunk starts. -/
def DimensionDesc.IsChunkStart (d : DimensionDesc) (p : Int) : Prop :=
  d.startMin ≤ p ∧ p ≤ d.endMax ∧ d.chunkInterval ∣ p - d.startMin

/-- Number of chunks along the dimension. -/
def DimensionDesc.chunkCount (d : DimensionDesc) : Nat :=
  ((d.endMax - d.startMin) / d.chunkInterval).toNat + 1

/-- The start of the `k`-th chunk along the dimension. -/
def DimensionDesc.chunkStart (d : DimensionDesc) (k : Nat) : Int :=
  d.startMin + k * d.chunkInterval

/-- The start of the last chunk. -/
def DimensionDesc.lastChunkStart (d : DimensionDesc) : Int :=
  d.chunkStart (d.chunkCount - 1)

/-- The chunk positions along the dimension in increasing order. -/
def DimensionDesc.chunkStarts (d : DimensionDesc) : List Int :=
  (List.range d.chunkCount).map d.chunkStart

/-- A chunk position of the grid. -/
def IsChunkPosition (dims : List DimensionDesc) (pos : List Int) : Prop :=
  List.Forall₂ DimensionDesc.IsChunkStart dims pos

/-- All chunk positions of the grid in row-major order. -/
def grid (dims : List DimensionDesc) : List (List Int) :=
  rowMajor (dims.map DimensionDesc.chunkStarts)

namespace DimensionDesc

variable (d : DimensionDesc)

theorem chunkCount_cast : (d.chunkCount : Int) = (d.endMax - d.startMin) / d.chunkInterval + 1 := by
  have hnonneg : 0 ≤ (d.endMax - d.startMin) / d.chunkInterval :=
    Int.ediv_nonneg (by have := d.start_le_end; omega) d.interval_pos.le
  rw [chunkCount]
  omega

variable {k : Nat} {p : Int}

/-- The `k`-th chunk exists exactly if it starts inside the dimension. -/
theorem lt_chunkCount_iff : k < d.chunkCount ↔ d.chunkStart k ≤ d.endMax := by
  have hle := Int.le_ediv_iff_mul_le (a := (k : Int)) (b := d.endMax - d.startMin) d.interval_pos
  have hcast := d.chunkCount_cast
  rw [chunkStart]
  constructor
  · intro h
    omega
  · intro h
    omega

theorem chunkStart_ge (k : Nat) : d.startMin ≤ d.chunkStart k := by
  have : 0 ≤ (k : Int) * d.chunkInterval := Int.mul_nonneg (by omega) d.interval_pos.le
  rw [chunkStart]
  omega

theorem chunkStart_succ (k : Nat) : d.chunkStart (k + 1) = d.chunkStart k + d.chunkInterval := by
  simp only [chunkStart, Nat.cast_add]
  ring

theorem isChunkStart_iff : d.IsChunkStart p ↔ ∃ k, k < d.chunkCount ∧ p = d.chunkStart k := by
  constructor
  · rintro ⟨hge, hle, c, hc⟩
    have hc0 : 0 ≤ c := by
      by_contra hneg
      have : d.chunkInterval * c < 0 := Int.mul_neg_of_pos_of_neg d.interval_pos (by omega)
      omega
    have hp : p = d.chunkStart c.toNat := by
      rw [chunkStart, Int.toNat_of_nonneg hc0, Int.mul_comm]
      omega
    exact ⟨c.toNat, d.lt_chunkCount_iff.mpr (hp ▸ hle), hp⟩
  · rintro ⟨k, hk, rfl⟩
    refine ⟨d.chunkStart_ge k, d.lt_chunkCount_iff.mp hk, k, ?_⟩
    rw [chunkStart]
    ring

theorem mem_chunkStarts : p ∈ d.chunkStarts ↔ d.IsChunkStart p := by
  rw [isChunkStart_iff, chunkStarts, mem_map]
  constructor
  · rintro ⟨k, hk, rfl⟩
    exact ⟨k, mem_range.mp hk, rfl⟩
  · rintro ⟨k, hk, rfl⟩
    exact ⟨k, mem_range.mpr hk, rfl⟩

theorem chunkStart_lt {j : Nat} (h : j < k) : d.chunkStart j < d.chunkStart k := by
  have : (j : Int) * d.chunkInterval < k * d.chunkInterval :=
    Int.mul_lt_mul_of_pos_right (by omega) d.interval_pos
  rw [chunkStart, chunkStart]
  omega

theorem chunkStarts_pairwise : d.chunkStarts.Pairwise (· < ·) := by
  rw [chunkStarts, pairwise_map]
  exact pairwise_lt_range.imp fun h => d.chunkStart_lt h

end DimensionDesc

variable {dims : List DimensionDesc} {pos : List Int} {d : DimensionDesc} {p : Int}
  {axis n width : Nat} {text : String}

theorem mem_grid : pos ∈ grid dims ↔ IsChunkPosition dims pos := by
  rw [grid, mem_rowMajor, forall₂_map_left_iff, IsChunkPosition]
  have h : (fun (d : DimensionDesc) p => p ∈ d.chunkStarts) = DimensionDesc.IsChunkStart := by
    funext d p
    exact propext d.mem_chunkStarts
  rw [h]

theorem grid_pairwise (dims : List DimensionDesc) : (grid dims).Pairwise (· < ·) := by
  apply rowMajor_pairwise
  intro l hl
  obtain ⟨d, _, rfl⟩ := mem_map.mp hl
  exact d.chunkStarts_pairwise

/-! ## Advancing along one dimension -/

/-- `curPos[curDim] += interval`, compared with the end of the dimension. -/
def DimensionDesc.step (d : DimensionDesc) (p : Int) : Except Fault (Option Int) := do
  let p' ← int64 (p + d.chunkInterval)
  return if p' > d.endMax then none else some p'

theorem DimensionDesc.step_of_lt (hlo : -2 ^ 63 ≤ p) (hhi : p + d.chunkInterval < 2 ^ 63) :
    d.step p =
      .ok (if p + d.chunkInterval > d.endMax then none else some (p + d.chunkInterval)) := by
  have hpos := d.interval_pos
  rw [step, int64_of_mem ⟨by omega, hhi⟩]
  rfl

/-- A step that succeeds did not overflow. -/
theorem DimensionDesc.step_ok {o : Option Int} (h : d.step p = .ok o) :
    p + d.chunkInterval < 2 ^ 63 ∧
      o = if p + d.chunkInterval > d.endMax then none else some (p + d.chunkInterval) := by
  rw [step, bind_eq_ok] at h
  rcases h with ⟨p', hp', ho⟩
  rw [int64] at hp'
  split at hp'
  · rename_i hmem
    cases Except.ok.inj hp'
    exact ⟨hmem.2, (Except.ok.inj ho).symm⟩
  · cases hp'

/-- The dimension as a digit of the position odometer. -/
def DimensionDesc.digit (d : DimensionDesc) : Digit Fault Int where
  first := d.startMin
  next := d.step
  rank p := (d.endMax - p).toNat
  rank_lt := by
    intro p p' h
    have hpos := d.interval_pos
    rcases DimensionDesc.step_ok h with ⟨_, ho⟩
    split at ho
    · cases ho
    · cases ho
      omega

/-- From a chunk that is not the last one the increment leads to the next. -/
theorem DimensionDesc.step_chunkStart {k : Nat} (h : k + 1 < d.chunkCount) :
    d.step (d.chunkStart k) = .ok (some (d.chunkStart (k + 1))) := by
  have hmin := d.getMin_le
  have hmax := d.le_getMax
  have hge := d.chunkStart_ge k
  have hle := d.lt_chunkCount_iff.mp h
  rw [d.chunkStart_succ] at hle ⊢
  rw [step_of_lt (by omega) (by omega), if_neg (by omega)]

theorem DimensionDesc.chunkStart_zero : d.chunkStart 0 = d.startMin := by
  simp [chunkStart]

/-- The increment enumerates the chunk positions of a dimension, provided the
position after the last one still is a 64-bit number. -/
theorem DimensionDesc.step_enumerates (h : d.lastChunkStart + d.chunkInterval < 2 ^ 63) :
    Enumerates d.step (.ok (some d.startMin)) d.chunkStarts := by
  obtain ⟨n, hn⟩ : ∃ n, d.chunkCount = n + 1 := ⟨_, rfl⟩
  have hlast : d.lastChunkStart = d.chunkStart n := by rw [lastChunkStart, hn, Nat.add_sub_cancel]
  have hend : ¬ d.chunkStart (n + 1) ≤ d.endMax := by
    rw [← d.lt_chunkCount_iff]
    omega
  have hmin := d.getMin_le
  have hge := d.chunkStart_ge n
  rw [hlast] at h
  rw [d.chunkStart_succ] at hend
  rw [chunkStarts, hn, range_succ_eq_map, map_cons, map_map, chunkStart_zero]
  refine .more (enumerates_range chunkStart_zero (fun k hk => step_chunkStart (by omega)) ?_)
  rw [step_of_lt (by omega) h, if_pos (by omega)]

/-- If the increment enumerates anything from the first position on, it does not
overflow at the last one. -/
theorem DimensionDesc.lastChunkStart_lt {l : List Int}
    (h : Enumerates d.step (.ok (some d.startMin)) l) :
    d.lastChunkStart + d.chunkInterval < 2 ^ 63 := by
  cases h with
  | more h =>
    rcases h.passes_range (n := d.chunkCount - 1) chunkStart_zero
      fun k hk => step_chunkStart (by omega) with ⟨o, ho⟩
    exact (step_ok ho).1

/-! ## The location functions -/

/-- `(pos[i] - dims[i].getStartMin()) / dims[i].getChunkInterval()` -/
def chunkIndex (d : DimensionDesc) (p : Int) : Except Fault Int := do
  let relative ← int64 (p - d.startMin)
  return relative.tdiv d.chunkInterval

/-- The key that is hashed: the chunk number along each dimension. -/
def hashKey : List DimensionDesc → List Int → Except Fault (List Int)
  | _, [] => .ok []
  | [], _ :: _ => .error .outOfRange
  | d :: dims, p :: pos => do
      let k ← chunkIndex d p
      let key ← hashKey dims pos
      return k :: key

/-- `getHashedChunkInstance`; `murmurHash3` is `MurmurHash3_x64_128` with seed 0. -/
def getHashedChunkInstance (murmurHash3 : List Int → BitVec 128) (dims : List DimensionDesc)
    (pos : List Int) (nInstances : Nat) : Except Fault Nat := do
  let key ← hashKey dims pos
  let result128low := (murmurHash3 key).toNat / 2 ^ 64 % 2 ^ 64
  let result := result128low * nInstances % 2 ^ 128 / 2 ^ 64 % 2 ^ 64
  require (result < nInstances) (.assertion "result < nInstances") <| return result

/-- `idivCeil`, in unsigned 64-bit arithmetic. -/
def idivCeil (n divisor : Nat) : Except Fault Nat :=
  require (divisor > 0) (.assertion "divisor > 0") <| .ok ((n + divisor - 1) % 2 ^ 64 / divisor)

/-- The body shared by the by-row and by-column distributions: consecutive
blocks of chunks along one axis go to one instance. -/
def blockLocation (axis : Nat) (text : String) (dims : List DimensionDesc) (chunkPos : List Int)
    (nInstances : Nat) : Except Fault Nat := do
  let result ←
    match dims[axis]?, chunkPos[axis]? with
    | none, _ => .ok 0
    | some _, none => .error .outOfRange
    | some d, some p => do
        let widthInChunks ← idivCeil d.getLength d.chunkInterval.toNat
        let maxChunksPerInstance ← idivCeil widthInChunks nInstances
        let posInChunks ← chunkIndex d p
        require (maxChunksPerInstance ≠ 0) .divisionByZero <|
          return toUInt64 posInChunks / maxChunksPerInstance
  require (result < nInstances) (.assertion text) <| return result

/-- `ByColumnArrayDistribution::getPrimaryChunkLocation` -/
def byColumnLocation : List DimensionDesc → List Int → Nat → Except Fault Nat :=
  blockLocation 1 "ByColumnArrayDistribution::getPrimaryChunkLocation() overflow"

/-- `ByRowArrayDistribution::getPrimaryChunkLocation` -/
def byRowLocation : List DimensionDesc → List Int → Nat → Except Fault Nat :=
  blockLocation 0 "ByRowArrayDistribution::getPrimaryChunkLocation() overflow"

/-- The cyclic assignment along one axis. -/
def cyclicLocation (axis : Nat) (dims : List DimensionDesc) (pos : List Int)
    (nInstances : Nat) : Except Fault Nat :=
  match dims[axis]?, pos[axis]? with
  | some d, some p => do
      let chunk ← chunkIndex d p
      require (nInstances ≠ 0) .divisionByZero <| return toUInt64 chunk % nInstances
  | _, _ => .error .outOfRange

/-- `RowCyclicDistrib::getPrimaryChunkLocation` -/
def rowCyclicLocation : List DimensionDesc → List Int → Nat → Except Fault Nat :=
  cyclicLocation 0

/-- `ColCyclicDistrib::getPrimaryChunkLocation` -/
def colCyclicLocation (dims : List DimensionDesc) (pos : List Int) (nInstances : Nat) :
    Except Fault Nat :=
  if dims.length ≤ 1 then .error .wrongNumberOfDimensions
  else cyclicLocation 1 dims pos nInstances

/-- The distributions that partition the grid. -/
inductive Distrib
  | hashed (murmurHash3 : List Int → BitVec 128)
  | byRow
  | byColumn
  | rowCyclic
  | colCyclic

/-- `valid` -/
def Distrib.valid : Distrib → List DimensionDesc → Bool
  | .byColumn, dims | .colCyclic, dims => dims.length ≥ 2
  | _, _ => true

/-- `getPrimaryChunkLocation` -/
def getPrimaryChunkLocation : Distrib → List DimensionDesc → List Int → Nat → Except Fault Nat
  | .hashed murmurHash3 => getHashedChunkInstance murmurHash3
  | .byRow => byRowLocation
  | .byColumn => byColumnLocation
  | .rowCyclic => rowCyclicLocation
  | .colCyclic => colCyclicLocation

/-! ## Every chunk position has a location -/

/-- The position along one axis of the grid. -/
theorem IsChunkPosition.getElem? (h : IsChunkPosition dims pos) (hd : dims[axis]? = some d) :
    ∃ p, pos[axis]? = some p ∧ d.IsChunkStart p := by
  induction h generalizing axis with
  | nil => simp at hd
  | @cons d' p dims pos hp _ ih =>
    cases axis with
    | zero =>
      simp only [getElem?_cons_zero, Option.some.injEq] at hd
      subst hd
      exact ⟨p, rfl, hp⟩
    | succ axis => exact ih (by simpa using hd)

theorem chunkIndex_ok (h : d.IsChunkStart p) :
    ∃ k : Nat, k < d.chunkCount ∧ chunkIndex d p = .ok k := by
  rcases d.isChunkStart_iff.mp h with ⟨k, hk, rfl⟩
  have hmin := d.getMin_le
  have hmax := d.le_getMax
  have hge := d.chunkStart_ge k
  have hle := d.lt_chunkCount_iff.mp hk
  refine ⟨k, hk, ?_⟩
  rw [chunkIndex, int64_of_mem ⟨by omega, by omega⟩]
  have hdiv : (d.chunkStart k - d.startMin).tdiv d.chunkInterval = k := by
    rw [DimensionDesc.chunkStart, add_sub_cancel_left, Int.mul_tdiv_cancel _ d.interval_pos.ne']
  show Except.ok _ = _
  rw [hdiv]

theorem hashKey_ok (h : IsChunkPosition dims pos) : ∃ key, hashKey dims pos = .ok key := by
  induction h with
  | nil => exact ⟨[], rfl⟩
  | cons hp _ ih =>
    rcases chunkIndex_ok hp with ⟨k, _, hk⟩
    rcases ih with ⟨key, hkey⟩
    refine ⟨k :: key, ?_⟩
    rw [hashKey, hk, hkey]
    rfl

/-- The scaled hash value is an instance. -/
theorem scaledHash_lt (h : BitVec 128) (hn : 0 < n) (hn64 : n < 2 ^ 64) :
    h.toNat / 2 ^ 64 % 2 ^ 64 * n % 2 ^ 128 / 2 ^ 64 % 2 ^ 64 < n := by
  have hlow : h.toNat / 2 ^ 64 % 2 ^ 64 < 2 ^ 64 := Nat.mod_lt _ (by norm_num)
  have hmul : h.toNat / 2 ^ 64 % 2 ^ 64 * n < 2 ^ 64 * n := Nat.mul_lt_mul_of_pos_right hlow hn
  have hdiv : h.toNat / 2 ^ 64 % 2 ^ 64 * n % 2 ^ 128 / 2 ^ 64 < n := by
    apply Nat.div_lt_of_lt_mul
    exact lt_of_le_of_lt (Nat.mod_le _ _) hmul
  rw [Nat.mod_eq_of_lt (by omega)]
  exact hdiv

variable (d)

/-- The width in chunks is the number of chunks. -/
theorem idivCeil_width : idivCeil d.getLength d.chunkInterval.toNat = .ok d.chunkCount := by
  have hmin := d.getMin_le
  have hmax := d.le_getMax
  have hse := d.start_le_end
  have hpos := d.interval_pos
  have hlt := d.interval_lt
  obtain ⟨i, hi⟩ : ∃ i : Nat, d.chunkInterval = i := ⟨d.chunkInterval.toNat, by omega⟩
  obtain ⟨l, hl⟩ : ∃ l : Nat, d.endMax - d.startMin = l := ⟨(d.endMax - d.startMin).toNat, by omega⟩
  have hlen : d.getLength = l + 1 := by
    rw [DimensionDesc.getLength]
    omega
  have hcount : d.chunkCount = l / i + 1 := by
    rw [DimensionDesc.chunkCount, hl, hi]
    norm_cast
  rw [idivCeil, require_pos (by omega), hlen, hcount, hi, Int.toNat_natCast,
    Nat.mod_eq_of_lt (by omega), show l + 1 + i - 1 = l + i by omega,
    Nat.add_div_right _ (by omega)]

/-- Without wrap-around the blocks cover all chunks. -/
theorem idivCeil_instances (hn : 0 < n) (hwidth : 0 < width) (hwrap : width + n ≤ 2 ^ 64) :
    ∃ m, idivCeil width n = .ok m ∧ m ≠ 0 ∧ ∀ k, k < width → k / m < n := by
  refine ⟨(width + n - 1) / n, ?_, ?_, ?_⟩
  · rw [idivCeil, require_pos hn, Nat.mod_eq_of_lt (by omega)]
  · have := Nat.div_pos (by omega : n ≤ width + n - 1) hn
    omega
  · intro k hk
    have hdiv := Nat.div_add_mod (width + n - 1) n
    have hmod := Nat.mod_lt (width + n - 1) hn
    apply Nat.div_lt_of_lt_mul
    rw [Nat.mul_comm]
    omega

/-- When the sum in the rounding wraps around, the block size becomes zero. -/
theorem idivCeil_wraps (hn64 : n < 2 ^ 64) (hwidth : width ≤ 2 ^ 63) (hwrap : 2 ^ 64 < width + n) :
    idivCeil width n = .ok 0 := by
  rw [idivCeil, require_pos (by omega), Nat.div_eq_of_lt (by omega)]

theorem chunkCount_pos : 0 < d.chunkCount := by
  rw [DimensionDesc.chunkCount]
  omega

theorem chunkCount_le : d.chunkCount ≤ 2 ^ 63 := by
  have hmin := d.getMin_le
  have hmax := d.le_getMax
  have hle : (d.endMax - d.startMin) / d.chunkInterval ≤ d.endMax - d.startMin :=
    Int.ediv_le_self _ (by have := d.start_le_end; omega)
  have := d.chunkCount_cast
  omega

variable {d}

section

variable (hpos : IsChunkPosition dims pos)

include hpos

theorem blockLocation_ok (hd : dims[axis]? = some d) (hn : 0 < n)
    (hwrap : d.chunkCount + n ≤ 2 ^ 64) :
    ∃ loc, loc < n ∧ blockLocation axis text dims pos n = .ok loc := by
  rcases hpos.getElem? hd with ⟨p, hp, hstart⟩
  rcases chunkIndex_ok hstart with ⟨k, hk, hindex⟩
  rcases idivCeil_instances hn (chunkCount_pos d) hwrap with ⟨m, hm, hm0, hlt⟩
  have hk64 : toUInt64 k = k := by
    rw [toUInt64]
    omega
  refine ⟨k / m, hlt k hk, ?_⟩
  simp only [blockLocation, hd, hp, idivCeil_width, hm, hindex, bind, Except.bind]
  rw [require_pos hm0, hk64]
  exact require_pos (hlt k hk) _ _

/-- A wrapped block size divides by zero. -/
theorem blockLocation_wraps (hd : dims[axis]? = some d) (hn64 : n < 2 ^ 64)
    (hwrap : 2 ^ 64 < d.chunkCount + n) :
    blockLocation axis text dims pos n = .error .divisionByZero := by
  rcases hpos.getElem? hd with ⟨p, hp, hstart⟩
  rcases chunkIndex_ok hstart with ⟨k, _, hindex⟩
  have hzero := idivCeil_wraps hn64 (chunkCount_le d) hwrap
  simp only [blockLocation, hd, hp, idivCeil_width, hzero, hindex, bind, Except.bind]
  rw [require_neg (by simp)]

theorem cyclicLocation_ok (hd : dims[axis]? = some d) (hn : 0 < n) :
    ∃ loc, loc < n ∧ cyclicLocation axis dims pos n = .ok loc := by
  rcases hpos.getElem? hd with ⟨p, hp, hstart⟩
  rcases chunkIndex_ok hstart with ⟨k, _, hindex⟩
  refine ⟨toUInt64 k % n, Nat.mod_lt _ hn, ?_⟩
  simp only [cyclicLocation, hd, hp, hindex]
  exact require_pos (by omega) _ _

end

/-- The dimension along which a block distribution divides the chunks. -/
def Distrib.blockDimension : Distrib → List DimensionDesc → Option DimensionDesc
  | .byRow, dims => dims[0]?
  | .byColumn, dims => dims[1]?
  | _, _ => none

/-- Rounding the block size up does not wrap around. -/
def Distrib.BlocksFit (dist : Distrib) (dims : List DimensionDesc) (nInstances : Nat) : Prop :=
  ∀ d, dist.blockDimension dims = some d → d.chunkCount + nInstances ≤ 2 ^ 64

variable {dist : Distrib}

/-- Every chunk position is assigned to one of the instances. -/
theorem location_ok (hdims : dims ≠ []) (hvalid : dist.valid dims = true) (hn : 0 < n)
    (hn64 : n < 2 ^ 64) (hfit : dist.BlocksFit dims n) (hpos : IsChunkPosition dims pos) :
    ∃ loc, loc < n ∧ getPrimaryChunkLocation dist dims pos n = .ok loc := by
  have hrow : ∃ d, dims[0]? = some d := by
    cases dims with
    | nil => exact absurd rfl hdims
    | cons d dims => exact ⟨d, rfl⟩
  have hcol : 2 ≤ dims.length → ∃ d, dims[1]? = some d := by
    intro h
    exact ⟨dims[1], getElem?_eq_getElem h⟩
  cases dist with
  | hashed murmurHash3 =>
    rcases hashKey_ok hpos with ⟨key, hkey⟩
    refine ⟨_, scaledHash_lt (murmurHash3 key) hn hn64, ?_⟩
    simp only [getPrimaryChunkLocation, getHashedChunkInstance, hkey]
    exact require_pos (scaledHash_lt (murmurHash3 key) hn hn64) _ _
  | byRow =>
    rcases hrow with ⟨d, hd⟩
    exact blockLocation_ok hpos hd hn (hfit d hd)
  | byColumn =>
    rcases hcol (by simpa [Distrib.valid] using hvalid) with ⟨d, hd⟩
    exact blockLocation_ok hpos hd hn (hfit d hd)
  | rowCyclic =>
    rcases hrow with ⟨d, hd⟩
    exact cyclicLocation_ok hpos hd hn
  | colCyclic =>
    have hlen : 2 ≤ dims.length := by simpa [Distrib.valid] using hvalid
    rcases hcol hlen with ⟨d, hd⟩
    simp only [getPrimaryChunkLocation, colCyclicLocation]
    rw [if_neg (by omega)]
    exact cyclicLocation_ok hpos hd hn

/-- If the rounding wraps around, no chunk position has a location. -/
theorem location_wraps (hn64 : n < 2 ^ 64) (hfit : ¬ dist.BlocksFit dims n)
    (hpos : IsChunkPosition dims pos) :
    getPrimaryChunkLocation dist dims pos n = .error .divisionByZero := by
  rw [Distrib.BlocksFit] at hfit
  push Not at hfit
  rcases hfit with ⟨d, hd, hwrap⟩
  cases dist with
  | byRow => exact blockLocation_wraps hpos hd hn64 hwrap
  | byColumn => exact blockLocation_wraps hpos hd hn64 hwrap
  | hashed murmurHash3 => cases hd
  | rowCyclic => cases hd
  | colCyclic => cases hd

end SciDB.Distribution
