import SciDB.Distribution.Locations

/-!
# The chunk of a cell

`ArrayDesc::getChunkPositionFor` (`src/array/ArrayDesc.cpp`) rounds the coordinates
of a cell down to those of the chunk that holds it, also in front of the first
chunk.

Main results:

- Theorem {lit}`getChunkPosition_eq`: the position is rounded down in the grid of the
  dimension.
- Theorem {lit}`getChunkPosition_eq_iff`: a chunk holds the positions that are rounded to
  its start.
-/

namespace SciDB.Distribution

/-- One turn of the loop of `getChunkPositionFor`; `%` rounds towards zero. -/
def getChunkPosition (dim : DimensionDesc) (pos : Int) : Int :=
  let diff := (pos - dim.startMin).tmod dim.chunkInterval
  let diff := if diff < 0 then diff + dim.chunkInterval else diff
  pos - diff

/-- `getChunkPositionFor` -/
def getChunkPositionFor (dims : List DimensionDesc) (pos : List Int) : List Int :=
  List.zipWith getChunkPosition dims pos

/-- The remainder after the correction of the source is the one that rounds down. -/
theorem tmod_corrected {a b : Int} (hb : 0 < b) :
    (if a.tmod b < 0 then a.tmod b + b else a.tmod b) = a % b := by
  have hge := Int.emod_nonneg a hb.ne'
  by_cases ha : 0 ≤ a
  · rw [Int.tmod_eq_emod_of_nonneg ha, if_neg hge.not_gt]
  · have hlt := Int.emod_lt_of_pos a hb
    have hdvd : b ∣ a ↔ a % b = 0 := Int.dvd_iff_emod_eq_zero
    rw [Int.tmod_eq_emod]
    by_cases h : b ∣ a
    · simp [h, hdvd.mp h]
    · simp only [ha, h, or_self, if_false]
      omega

/-- The position is rounded down in the grid of the dimension. -/
theorem getChunkPosition_eq (dim : DimensionDesc) (pos : Int) :
    getChunkPosition dim pos = pos - (pos - dim.startMin) % dim.chunkInterval := by
  simp [getChunkPosition, tmod_corrected dim.interval_pos]

theorem dvd_getChunkPosition (dim : DimensionDesc) (pos : Int) :
    dim.chunkInterval ∣ getChunkPosition dim pos - dim.startMin := by
  rw [getChunkPosition_eq, show pos - (pos - dim.startMin) % dim.chunkInterval - dim.startMin =
    pos - dim.startMin - (pos - dim.startMin) % dim.chunkInterval by ring]
  exact Int.dvd_self_sub_emod

variable {dim : DimensionDesc} {pos : Int}

/-- A chunk holds the positions that are rounded to its start. -/
theorem getChunkPosition_eq_iff {start : Int} (h : dim.chunkInterval ∣ start - dim.startMin) :
    getChunkPosition dim pos = start ↔ start ≤ pos ∧ pos < start + dim.chunkInterval := by
  have hpos := dim.interval_pos
  have hmod : (pos - dim.startMin) % dim.chunkInterval = (pos - start) % dim.chunkInterval := by
    obtain ⟨k, hk⟩ := h
    rw [show pos - dim.startMin = (pos - start) + dim.chunkInterval * k by omega,
      Int.add_mul_emod_self_left]
  rw [getChunkPosition_eq, hmod]
  constructor
  · intro heq
    have hge := Int.emod_nonneg (pos - start) hpos.ne'
    have hlt := Int.emod_lt_of_pos (pos - start) hpos
    omega
  · rintro ⟨hge, hlt⟩
    rw [Int.emod_eq_of_lt (by omega) (by omega)]
    omega

/-- No chunk in front of the first one reaches into the dimension. -/
theorem startMin_le_getChunkPosition :
    dim.startMin ≤ getChunkPosition dim pos ↔ dim.startMin ≤ pos := by
  have hdvd := dvd_getChunkPosition dim pos
  have hrange := (getChunkPosition_eq_iff hdvd).mp rfl
  have hpos := dim.interval_pos
  constructor
  · intro h
    omega
  · intro h
    obtain ⟨k, hk⟩ := hdvd
    by_contra hlt
    have hk : k ≤ -1 := by
      by_contra hk
      have := Int.mul_nonneg hpos.le (show 0 ≤ k by omega)
      omega
    have := Int.mul_le_mul_of_nonneg_left hk hpos.le
    omega

/-- A position inside the bounds is in one of the chunks. -/
theorem isChunkStart_getChunkPosition (hmin : dim.startMin ≤ pos) (hmax : pos ≤ dim.endMax) :
    dim.IsChunkStart (getChunkPosition dim pos) := by
  have hdvd := dvd_getChunkPosition dim pos
  have hrange := (getChunkPosition_eq_iff hdvd).mp rfl
  exact ⟨startMin_le_getChunkPosition.mpr hmin, by omega, hdvd⟩

theorem getChunkPosition_mono {pos' : Int} (h : pos ≤ pos') :
    getChunkPosition dim pos ≤ getChunkPosition dim pos' := by
  have hdvd := dvd_getChunkPosition dim pos
  have hdvd' := dvd_getChunkPosition dim pos'
  have hrange := (getChunkPosition_eq_iff hdvd).mp rfl
  have hrange' := (getChunkPosition_eq_iff hdvd').mp rfl
  by_contra hlt
  -- chunk starts that differ are at least an interval apart
  have := Int.le_of_dvd (by omega) (Int.dvd_sub hdvd hdvd')
  omega

end SciDB.Distribution
