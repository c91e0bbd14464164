import SciDB.Distribution.Locations

/-!
# Enumerating the chunks of an instance

`getFirstChunkCoord` and `getNextChunkCoord` walk over the chunk positions that
belong to one instance.  The base class tries every position of the grid; the
row-cyclic distribution overrides the search and skips the rest of a row that
belongs to another instance.

Main results:

- Theorem {lit}`rowCyclicSearch_eq`: where the brute-force search succeeds, the
  row-skipping search gives the same answer.
- Theorem {lit}`partitionsGrid_iff`: the distributions partition the grid, and the
  enumeration visits the chunks of each instance once in row-major order, exactly
  if no 64-bit operation on the way overflows.
-/

namespace SciDB.Distribution

open Odometer List

/-! ## The search functions -/

/-- `ALL_INSTANCE_MASK` -/
def ALL_INSTANCE_MASK : Nat := 2 ^ 64 - 1

/-- The grid odometer: one digit per dimension. -/
def digits (dims : List DimensionDesc) : List (Digit Fault Int) :=
  dims.map DimensionDesc.digit

/-- The position where every dimension starts. -/
def origin (dims : List DimensionDesc) : List Int :=
  dims.map DimensionDesc.startMin

/-- The test of the base class whether a position belongs to an instance. -/
def belongs (dist : Distrib) (dims : List DimensionDesc) (nInstances instanceID : Nat)
    (pos : List Int) : Except Fault Bool := do
  let loc ← getPrimaryChunkLocation dist dims pos nInstances
  return loc = instanceID ∨ loc = ALL_INSTANCE_MASK

/-- The loop of `ArrayDistribution::getNextChunkCoord`.  Its inner loop, which
resets the dimensions that run out and carries into the one before, is the turn
of the grid odometer. -/
def bruteForceSearch (dist : Distrib) (dims : List DimensionDesc) (nInstances instanceID : Nat)
    (curPos : List Int) : Except Fault (Option (List Int)) :=
  match _hturn : advance (digits dims) curPos with
  | .error e => .error e
  | .ok none => .ok none
  | .ok (some pos) =>
    match belongs dist dims nInstances instanceID pos with
    | .error e => .error e
    | .ok true => .ok (some pos)
    | .ok false => bruteForceSearch dist dims nInstances instanceID pos
termination_by rank (digits dims) curPos
decreasing_by exact advance_rank _hturn

/-- Reset all dimensions except for the row and increment the row. -/
def skipRow (dims : List DimensionDesc) (pos : List Int) : Except Fault (Option (List Int)) :=
  match dims, pos with
  | d :: ds, row :: _ => (d.step row).map (Option.map (· :: origin ds))
  | _, _ => .error .outOfRange

theorem map_first_digits (dims : List DimensionDesc) :
    (digits dims).map Digit.first = origin dims := by
  rw [digits, map_map]
  rfl

/-- Skipping to the next row lowers the rank as a turn of the odometer does. -/
theorem skipRow_rank {dims : List DimensionDesc} {pos next : List Int}
    (h : skipRow dims pos = .ok (some next)) : rank (digits dims) next < rank
    (digits dims) pos := by
  unfold skipRow at h
  split at h
  · rcases map_eq_ok_some h with ⟨row', hd, rfl⟩
    rw [← map_first_digits]
    exact rank_carry hd _
  · cases h

/-- The loop of `RowCyclicDistrib::getNextChunkCoord`. -/
def rowCyclicSearch (dims : List DimensionDesc) (nInstances instanceID : Nat)
    (curPos : List Int) : Except Fault (Option (List Int)) :=
  match _hturn : advance (digits dims) curPos with
  | .error e => .error e
  | .ok none => .ok none
  | .ok (some pos) =>
    match rowCyclicLocation dims pos nInstances with
    | .error e => .error e
    | .ok loc =>
      if loc = instanceID then .ok (some pos)
      else
        -- it does not belong to us, so we are on the wrong row
        match _hskip : skipRow dims pos with
        | .error e => .error e
        | .ok none => .ok none
        | .ok (some next) =>
          match rowCyclicLocation dims next nInstances with
          | .error e => .error e
          | .ok loc =>
            if loc = instanceID then .ok (some next)
            else rowCyclicSearch dims nInstances instanceID next
termination_by rank (digits dims) curPos
decreasing_by exact (skipRow_rank _hskip).trans (advance_rank _hturn)

/-- The checks before both loops: there are dimensions and the position has a
coordinate for each. -/
def checkPosition (dims : List DimensionDesc) (curPos : List Int)
    (search : Except Fault (Option (List Int))) : Except Fault (Option (List Int)) :=
  require (dims.length > 0) (.assertion "dims.size() > 0") <|
  require (curPos.length = dims.length) .outOfRange search

/-- `ArrayDistribution::getNextChunkCoord` -/
def getNextChunkCoordBase (dist : Distrib) (dims : List DimensionDesc)
    (nInstances instanceID : Nat) (curPos : List Int) : Except Fault (Option (List Int)) :=
  checkPosition dims curPos (bruteForceSearch dist dims nInstances instanceID curPos)

/-- `getNextChunkCoord`, which only the row-cyclic distribution overrides. -/
def getNextChunkCoord (dist : Distrib) (dims : List DimensionDesc)
    (nInstances instanceID : Nat) (curPos : List Int) : Except Fault (Option (List Int)) :=
  match dist with
  | .rowCyclic => checkPosition dims curPos (rowCyclicSearch dims nInstances instanceID curPos)
  | _ => getNextChunkCoordBase dist dims nInstances instanceID curPos

/-- `getFirstChunkCoord` -/
def getFirstChunkCoord (dist : Distrib) (dims : List DimensionDesc)
    (nInstances instanceID : Nat) (curPos : List Int) : Except Fault (Option (List Int)) := do
  if ← belongs dist dims nInstances instanceID curPos then
    return some curPos
  else
    getNextChunkCoord dist dims nInstances instanceID curPos

/-! ## The row-skipping search -/

variable {dims : List DimensionDesc} {n inst loc : Nat} {pos curPos : List Int}
  {o : Option (List Int)}

theorem bruteForceSearch_isSearch (dist : Distrib) (dims : List DimensionDesc) (n inst : Nat) :
    IsSearch (advance (digits dims)) (belongs dist dims n inst)
      (bruteForceSearch dist dims n inst) := by
  intro curPos
  rw [bruteForceSearch]
  split
  · rename_i e h
    simp [h]
  · rename_i h
    simp [h]
  · rename_i pos h
    simp only [h]
    cases belongs dist dims n inst pos with
    | error e => rfl
    | ok b => cases b <;> rfl

/-- A row-cyclic location is an instance, so it is never the mask. -/
theorem belongs_rowCyclic (inst : Nat) (hn64 : n < 2 ^ 64)
    (h : rowCyclicLocation dims pos n = .ok loc) :
    belongs .rowCyclic dims n inst pos = .ok (decide (loc = inst)) := by
  have hlt : loc < n := by
    rw [rowCyclicLocation, cyclicLocation] at h
    split at h
    · rcases bind_eq_ok.mp h with ⟨k, _, hk⟩
      rcases require_eq_ok.mp hk with ⟨hn, hret⟩
      cases Except.ok.inj hret
      exact Nat.mod_lt _ (Nat.pos_of_ne_zero hn)
    · cases h
  have hmask : loc ≠ ALL_INSTANCE_MASK := by
    rw [ALL_INSTANCE_MASK]
    omega
  rw [belongs, show getPrimaryChunkLocation .rowCyclic dims pos n = .ok loc from h]
  simp [hmask]

/-- A test that answers had a location to look at. -/
theorem belongs_ok {b : Bool} (hn64 : n < 2 ^ 64)
    (h : belongs .rowCyclic dims n inst pos = .ok b) :
    ∃ loc, rowCyclicLocation dims pos n = .ok loc ∧ b = decide (loc = inst) := by
  rcases bind_eq_ok.mp h with ⟨loc, hloc, _⟩
  have h' := belongs_rowCyclic inst hn64 hloc
  rw [h] at h'
  exact ⟨loc, hloc, Except.ok.inj h'⟩

/-- From a row of another instance the brute-force search, if it succeeds, goes
on with the first position of the next row. -/
theorem bruteForceSearch_skipRow {d : DimensionDesc} {ds : List DimensionDesc} {row : Int}
    {xs : List Int} (hother : belongs .rowCyclic (d :: ds) n inst (row :: xs) = .ok false)
    (h : bruteForceSearch .rowCyclic (d :: ds) n inst (row :: xs) = .ok o) :
    (skipRow (d :: ds) (row :: xs) = .ok none ∧ o = none) ∨
      ∃ next, skipRow (d :: ds) (row :: xs) = .ok (some next) ∧
        ((belongs .rowCyclic (d :: ds) n inst next = .ok true ∧ o = some next) ∨
          (belongs .rowCyclic (d :: ds) n inst next = .ok false ∧
            bruteForceSearch .rowCyclic (d :: ds) n inst next = .ok o)) := by
  induction hr : rank (digits ds) xs using Nat.strong_induction_on generalizing xs with
  | _ r ih =>
    have hcases := (bruteForceSearch_isSearch .rowCyclic (d :: ds) n inst).cases h
    rw [show digits (d :: ds) = d.digit :: digits ds from rfl, advance] at hcases
    cases hinner : advance (digits ds) xs with
    | error e => simp [hinner] at hcases
    | ok inner =>
      rw [hinner] at hcases
      cases inner with
      | some ys =>
        -- still on the same row, which belongs to another instance
        rcases hcases with ⟨hend, -⟩ | ⟨y, hy, hfound⟩
        · cases hend
        · cases hy
          have hys : belongs .rowCyclic (d :: ds) n inst (row :: ys) = .ok false := hother
          rw [hys] at hfound
          rcases hfound with ⟨hmine, -⟩ | ⟨-, hfound⟩
          · cases hmine
          · have hrest := ih _ (hr ▸ advance_rank hinner) hys hfound rfl
            exact hrest
      | none =>
        simp only [map_first_digits] at hcases
        exact hcases

/-- Where the brute-force search succeeds, from whatever position, the
row-skipping search gives the same answer. -/
theorem rowCyclicSearch_eq (hn64 : n < 2 ^ 64)
    (h : bruteForceSearch .rowCyclic dims n inst curPos = .ok o) :
    rowCyclicSearch dims n inst curPos = .ok o := by
  induction hr : rank (digits dims) curPos using Nat.strong_induction_on generalizing curPos with
  | _ r ih =>
    rcases (bruteForceSearch_isSearch .rowCyclic dims n inst).cases h with
      ⟨hturn, rfl⟩ | ⟨pos, hturn, hpos⟩ <;> rw [rowCyclicSearch] <;>
      split <;> rename_i hturn' <;> rw [hturn] at hturn' <;> cases hturn'
    rcases hpos with ⟨hmine, rfl⟩ | ⟨hother, hrest⟩
    · rcases belongs_ok hn64 hmine with ⟨loc, hloc, heq⟩
      simp only [hloc]
      rw [if_pos (of_decide_eq_true heq.symm)]
    · rcases belongs_ok hn64 hother with ⟨loc, hloc, heq⟩
      simp only [hloc]
      rw [if_neg (of_decide_eq_false heq.symm)]
      cases dims with
      | nil => cases hturn
      | cons d ds =>
        cases pos with
        | nil => exact absurd rfl (advance_ne_nil hturn)
        | cons row xs =>
          rcases bruteForceSearch_skipRow hother hrest with ⟨hskip, rfl⟩ | ⟨next, hskip, hnext⟩ <;>
            split <;> rename_i hskip' <;> rw [hskip] at hskip' <;> cases hskip'
          rcases hnext with ⟨hmine, rfl⟩ | ⟨hother, hrest⟩
          · rcases belongs_ok hn64 hmine with ⟨loc', hloc', heq⟩
            simp only [hloc']
            rw [if_pos (of_decide_eq_true heq.symm)]
          · rcases belongs_ok hn64 hother with ⟨loc', hloc', heq⟩
            simp only [hloc']
            rw [if_neg (of_decide_eq_false heq.symm)]
            exact ih _ (hr ▸ (skipRow_rank hskip).trans (advance_rank hturn)) hrest rfl

/-! ## The enumeration partitions the grid -/

/-- What a distribution has to do for a grid and a number of instances: give
every chunk position an instance, and enumerate for every instance exactly its
chunk positions, each once and in row-major order.  The override of the
row-cyclic distribution agrees with the base class on every chunk position. -/
def PartitionsGrid (dist : Distrib) (dims : List DimensionDesc) (n : Nat) : Prop :=
  (∀ pos, IsChunkPosition dims pos →
    ∃ loc, loc < n ∧ getPrimaryChunkLocation dist dims pos n = .ok loc) ∧
  (∀ inst, inst < n → ∃ l,
    Enumerates (getNextChunkCoord dist dims n inst)
      (getFirstChunkCoord dist dims n inst (origin dims)) l ∧
    l.Pairwise (· < ·) ∧
    ∀ pos, pos ∈ l ↔
      IsChunkPosition dims pos ∧ getPrimaryChunkLocation dist dims pos n = .ok inst) ∧
  (∀ inst, inst < n → ∀ pos, IsChunkPosition dims pos →
    getNextChunkCoord dist dims n inst pos = getNextChunkCoordBase dist dims n inst pos)

/-- No 64-bit operation of the enumeration overflows: the increment past the
last chunk of each dimension, and the rounding of the block size. -/
structure FitsInt64 (dist : Distrib) (dims : List DimensionDesc) (n : Nat) : Prop where
  increments : ∀ d ∈ dims, d.lastChunkStart + d.chunkInterval < 2 ^ 63
  blocks : dist.BlocksFit dims n

theorem checkPosition_eq (hdims : dims ≠ []) (hpos : IsChunkPosition dims pos)
    (search : Except Fault (Option (List Int))) : checkPosition dims pos search = search := by
  have hlen : pos.length = dims.length := (List.Forall₂.length_eq hpos).symm
  rw [checkPosition, require_pos (length_pos_iff.mpr hdims), require_pos hlen]

theorem isChunkPosition_origin (dims : List DimensionDesc) : IsChunkPosition dims
    (origin dims) := by
  induction dims with
  | nil => exact .nil
  | cons d dims ih => exact .cons ⟨le_rfl, d.start_le_end, by simp⟩ ih

/-- On a position whose location is known the test compares it. -/
theorem belongs_of_location {dist : Distrib} (hn64 : n < 2 ^ 64) (hloc : loc < n)
    (h : getPrimaryChunkLocation dist dims pos n = .ok loc) :
    belongs dist dims n inst pos =
      .ok (decide (getPrimaryChunkLocation dist dims pos n = .ok inst)) := by
  have hmask : loc ≠ ALL_INSTANCE_MASK := by
    rw [ALL_INSTANCE_MASK]
    omega
  rw [belongs, h]
  simp [hmask]

section

variable {dist : Distrib}

/-- Without overflow the odometer walks over the whole grid from its origin. -/
theorem advance_enumerates_grid (h : ∀ d ∈ dims, d.lastChunkStart + d.chunkInterval < 2 ^ 63) :
    Enumerates (advance (digits dims)) (.ok (some (origin dims))) (grid dims) := by
  rw [← map_first_digits]
  apply advance_enumerates
  rw [digits, forall₂_map_left_iff, forall₂_map_right_iff, forall₂_same]
  intro d hd
  exact DimensionDesc.step_enumerates (h d hd)

/-- From any chunk position on, the brute-force search enumerates chunk positions. -/
theorem bruteForceSearch_ok (hfit : FitsInt64 dist dims n)
    (hloc : ∀ pos, IsChunkPosition dims pos →
      ∃ loc, loc < n ∧ getPrimaryChunkLocation dist dims pos n = .ok loc)
    (hn64 : n < 2 ^ 64) (hpos : IsChunkPosition dims pos) :
    ∃ o, bruteForceSearch dist dims n inst pos = .ok o := by
  rcases (advance_enumerates_grid hfit.increments).of_mem (mem_grid.mpr hpos) with ⟨l, hsub, hl⟩
  apply Enumerates.exists_ok
  apply Enumerates.filter_search (bruteForceSearch_isSearch dist dims n inst)
    (fun pos => decide (getPrimaryChunkLocation dist dims pos n = .ok inst)) hl
  intro y hy
  rcases hloc y (mem_grid.mp (hsub y hy)) with ⟨loc, hlt, h⟩
  exact belongs_of_location hn64 hlt h

/-- The override never changes an answer on the grid. -/
theorem getNextChunkCoord_eq_base (hdims : dims ≠ []) (hn64 : n < 2 ^ 64)
    (hpos : IsChunkPosition dims pos)
    (hok : ∃ o, bruteForceSearch dist dims n inst pos = .ok o) :
    getNextChunkCoord dist dims n inst pos = getNextChunkCoordBase dist dims n inst pos := by
  cases dist with
  | rowCyclic =>
    rcases hok with ⟨o, ho⟩
    rw [getNextChunkCoord, getNextChunkCoordBase, checkPosition_eq hdims hpos,
      checkPosition_eq hdims hpos, ho, rowCyclicSearch_eq hn64 ho]
  | hashed murmurHash3 => rfl
  | byRow => rfl
  | byColumn => rfl
  | colCyclic => rfl

/-- Without overflow the enumeration of an instance lists its part of the grid. -/
theorem enumerates_filter_grid (hdims : dims ≠ []) (hn64 : n < 2 ^ 64)
    (hfit : FitsInt64 dist dims n)
    (hloc : ∀ pos, IsChunkPosition dims pos →
      ∃ loc, loc < n ∧ getPrimaryChunkLocation dist dims pos n = .ok loc) :
    Enumerates (getNextChunkCoord dist dims n inst)
      (getFirstChunkCoord dist dims n inst (origin dims))
      ((grid dims).filter fun pos =>
        decide (getPrimaryChunkLocation dist dims pos n = .ok inst)) := by
  have htest : ∀ pos ∈ grid dims, belongs dist dims n inst pos =
      .ok (decide (getPrimaryChunkLocation dist dims pos n = .ok inst)) := by
    intro pos hpos
    rcases hloc pos (mem_grid.mp hpos) with ⟨loc, hlt, h⟩
    exact belongs_of_location hn64 hlt h
  have hnext : ∀ pos ∈ grid dims,
      getNextChunkCoord dist dims n inst pos = bruteForceSearch dist dims n inst pos := by
    intro pos hpos
    have hchunk := mem_grid.mp hpos
    rw [getNextChunkCoord_eq_base hdims hn64 hchunk (bruteForceSearch_ok hfit hloc hn64 hchunk),
      getNextChunkCoordBase, checkPosition_eq hdims hchunk]
  have hgrid := advance_enumerates_grid hfit.increments
  have horigin := mem_grid.mpr (isChunkPosition_origin dims)
  cases hg : grid dims with
  | nil =>
    rw [hg] at horigin
    cases horigin
  | cons first rest =>
    rw [hg] at hgrid
    rcases enumerates_cons.mp hgrid with ⟨hfirst, hrest⟩
    have hfirst : origin dims = first := Option.some.inj (Except.ok.inj hfirst)
    subst hfirst
    have hsearch := Enumerates.filter_search (bruteForceSearch_isSearch dist dims n inst)
      (fun pos => decide (getPrimaryChunkLocation dist dims pos n = .ok inst)) hrest
      (fun y hy => htest y (hg ▸ mem_cons_of_mem _ hy))
    have hlater := hsearch.congr (getNextChunkCoord dist dims n inst) (by
      intro x hx
      exact hnext x (hg ▸ mem_cons_of_mem _ (mem_filter.mp hx).1))
    rw [← hnext _ horigin] at hlater
    rw [getFirstChunkCoord, htest _ horigin, filter_cons]
    by_cases hmine : getPrimaryChunkLocation dist dims (origin dims) n = .ok inst
    · simp only [hmine]
      exact .more hlater
    · simp only [hmine]
      exact hlater

/-- Without overflow the distribution partitions the grid. -/
theorem partitionsGrid_of_fits (hdims : dims ≠ []) (hvalid : dist.valid dims = true)
    (hn : 0 < n) (hn64 : n < 2 ^ 64) (hfit : FitsInt64 dist dims n) :
    PartitionsGrid dist dims n := by
  have hloc : ∀ pos, IsChunkPosition dims pos →
      ∃ loc, loc < n ∧ getPrimaryChunkLocation dist dims pos n = .ok loc :=
    fun pos hpos => location_ok hdims hvalid hn hn64 hfit.blocks hpos
  refine ⟨hloc, ?_, ?_⟩
  · intro inst _
    refine ⟨_, enumerates_filter_grid hdims hn64 hfit hloc, (grid_pairwise dims).filter _, ?_⟩
    intro pos
    rw [mem_filter, mem_grid, decide_eq_true_eq]
  · intro inst _ pos hpos
    exact getNextChunkCoord_eq_base hdims hn64 hpos (bruteForceSearch_ok hfit hloc hn64 hpos)

/-- An enumeration that ends has incremented every dimension past its last
chunk. -/
theorem increments_of_partitionsGrid (hdims : dims ≠ []) (hn : 0 < n)
    (h : PartitionsGrid dist dims n) :
    ∀ d ∈ dims, d.lastChunkStart + d.chunkInterval < 2 ^ 63 := by
  rcases h with ⟨_, henum, hagree⟩
  rcases henum 0 hn with ⟨l, hl, _, hmem⟩
  have horigin := isChunkPosition_origin dims
  have hnext : ∀ pos, IsChunkPosition dims pos →
      bruteForceSearch dist dims n 0 pos = getNextChunkCoord dist dims n 0 pos := by
    intro pos hpos
    rw [hagree 0 hn pos hpos, getNextChunkCoordBase, checkPosition_eq hdims hpos]
  -- whether or not the origin is ours, the search goes on from it
  have hfrom : ∃ l', (∀ pos ∈ l', IsChunkPosition dims pos) ∧
      Enumerates (getNextChunkCoord dist dims n 0)
        (getNextChunkCoord dist dims n 0 (origin dims)) l' := by
    rw [getFirstChunkCoord] at hl
    cases hb : belongs dist dims n 0 (origin dims) with
    | error e =>
      rw [hb] at hl
      cases hl
    | ok b =>
      rw [hb] at hl
      cases b with
      | true =>
        cases hl with
        | more hl => exact ⟨_, fun pos hpos => ((hmem pos).mp (mem_cons_of_mem _ hpos)).1, hl⟩
      | false => exact ⟨l, fun pos hpos => ((hmem pos).mp hpos).1, hl⟩
  rcases hfrom with ⟨l', hl'mem, hl'⟩
  have hsearch := hl'.congr (bruteForceSearch dist dims n 0)
    fun pos hpos => hnext pos (hl'mem pos hpos)
  rw [← hnext _ horigin] at hsearch
  rcases hsearch.of_search (bruteForceSearch_isSearch dist dims n 0) advance_rank with ⟨t, ht⟩
  have hall : Enumerates (advance (digits dims))
      (.ok (some ((digits dims).map Digit.first))) (origin dims :: t) := by
    rw [map_first_digits]
    exact .more ht
  intro d hd
  rcases digits_enumerate hall d.digit (mem_map_of_mem hd) with ⟨m, hm⟩
  exact DimensionDesc.lastChunkStart_lt hm

/-- The distributions partition the chunk grid, for every list of dimensions and
every number of instances, exactly if no 64-bit operation on the way overflows. -/
theorem partitionsGrid_iff (hdims : dims ≠ []) (hvalid : dist.valid dims = true)
    (hn : 0 < n) (hn64 : n < 2 ^ 64) :
    PartitionsGrid dist dims n ↔ FitsInt64 dist dims n := by
  constructor
  · intro h
    refine ⟨increments_of_partitionsGrid hdims hn h, ?_⟩
    by_contra hwrap
    have horigin := isChunkPosition_origin dims
    rcases h.1 _ horigin with ⟨loc, _, hloc⟩
    rw [location_wraps hn64 hwrap horigin] at hloc
    cases hloc
  · exact partitionsGrid_of_fits hdims hvalid hn hn64

/-- Ten by ten cells in chunks of five by four on three instances. -/
theorem partitionsGrid_ten_by_ten :
    PartitionsGrid .rowCyclic
      [⟨0, 9, 5, by decide, by decide, by decide, by decide, by decide⟩,
        ⟨0, 9, 4, by decide, by decide, by decide, by decide, by decide⟩] 3 :=
  (partitionsGrid_iff (by simp) rfl (by decide) (by decide)).mpr ⟨by decide, fun _ h => by cases h⟩

/-- One cell in a chunk with the largest interval the parser accepts. -/
def widestChunk : DimensionDesc :=
  ⟨1, 1, 2 ^ 63 - 1, by decide, by decide, by decide, by decide, by decide⟩

/-- The only chunk is found, but the search for the next one increments its
position past the largest 64-bit number. -/
theorem widestChunk_overflows :
    getFirstChunkCoord .byRow [widestChunk] 1 0 [1] = .ok (some [1]) ∧
      getNextChunkCoord .byRow [widestChunk] 1 0 [1] = .error .signedOverflow ∧
      ¬ PartitionsGrid .byRow [widestChunk] 1 := by
  have hturn : advance (digits [widestChunk]) [1] = .error .signedOverflow := by decide
  refine ⟨by decide, ?_, ?_⟩
  · show getNextChunkCoordBase .byRow [widestChunk] 1 0 [1] = _
    rw [getNextChunkCoordBase, bruteForceSearch_isSearch, hturn]
    rfl
  · intro h
    have := increments_of_partitionsGrid (by simp) (by decide) h widestChunk (by simp)
    revert this
    decide

end

end SciDB.Distribution
