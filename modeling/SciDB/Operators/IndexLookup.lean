import SciDB.Distribution.Positions
import SciDB.Lib.OrderedMap

/-!
# The index_lookup operator

`PhysicalIndexLookup` (`src/query/ops/index_lookup/PhysicalIndexLookup.cpp`) finds the
coordinate of a value in a one-dimensional index array.  A vector has a sample of the
values; a value that is not in it is looked for between two positions of the sorted index
by bisection.

Main results:

- Theorem {lit}`first_mem`, {lit}`last_mem`: the sample has the ends of each chunk.
- Theorems {lit}`drawn_mem`, {lit}`not_mem_of_not_drawn`: the sample when few numbers are drawn.
-/

namespace SciDB.Operators.IndexLookup

open SciDB.Distribution OrderedMap List

variable {V : Type} [LinearOrder V]

inductive Fault where
  /-- `getItem` of a chunk iterator that is not at a cell -/
  | noCurrentElement
deriving DecidableEq, Repr

/-! ## The sorted index -/

/-- A cell of the sorted index: its position there, its value, and the position of the value
in the index array. -/
structure Cell (V : Type) where
  position : Int
  value : V
  original : Int

/-- What `prepareIndexArray` returns: the values of the index in increasing order, at
consecutive positions.  `memberSize` is the average size of a member of the vector, as
`computeVectorLimits` estimates it from the chunks. -/
structure Prepared (V : Type) [LinearOrder V] where
  dim : DimensionDesc
  base : Int
  items : List (V × Int)
  increasing : items.Pairwise fun x y => x.1 < y.1
  preSortedAndNotNullable : Bool
  original_eq : preSortedAndNotNullable = true →
    ∀ k item, items[k]? = some item → item.2 = base + (k : Nat)
  memberSize : {size : ℚ // 0 < size}

namespace Prepared

variable (P : Prepared V)

/-- The cells in the order of their positions. -/
def cells : List (Cell V) :=
  P.items.zipIdx.map fun x => { position := P.base + x.2, value := x.1.1, original := x.1.2 }

/-- The chunk of a position. -/
def chunkOf (pos : Int) : Int :=
  getChunkPosition P.dim pos

/-! ## The lookup vector -/

structure MemoryLimits where
  insertionProbability : ℚ := 0
  numOptionalValues : Nat := 0

/-- The number of chunks of the index: a chunk starts with each cell that is not in the chunk
of the cell before it. -/
def chunkCount : Nat :=
  (P.cells.map fun c => P.chunkOf c.position).destutter (· ≠ ·) |>.length

def computeVectorLimits (memLimit : ℚ) : MemoryLimits :=
  let cellCount := P.cells.length
  let valuesThatFitInLimit := ⌊memLimit / P.memberSize.1⌋ - 2 * P.chunkCount
  if valuesThatFitInLimit ≤ 0 then {}
  else if valuesThatFitInLimit > cellCount then
    { insertionProbability := 1, numOptionalValues := valuesThatFitInLimit.toNat }
  else
    { insertionProbability := valuesThatFitInLimit / cellCount
      numOptionalValues := valuesThatFitInLimit.toNat }

/-- Whether a cell is the first of its chunk, after the cell before it. -/
def newChunk (previous : Option (Cell V)) (c : Cell V) : Bool :=
  decide (previous.map (fun p => P.chunkOf p.position) ≠ some (P.chunkOf c.position))

/-- The loops of `buildLookupVector` over the chunks and their cells.  `draw` says for each
cell whether a random number, if one is drawn there, is below the probability. -/
def buildLoop (limits : MemoryLimits) (draw : Int → Bool) :
    List (Cell V) → (previous : Option (Cell V)) → (currentValIsAdded : Bool) →
      (optionalValuesInserted : Nat) → List (Cell V)
  | [], previous, added, _ => if added then [] else previous.toList
  | c :: cs, previous, added, optional =>
    if P.newChunk previous c then
      (if added then [] else previous.toList) ++ c :: buildLoop limits draw cs
      (some c) true optional
    else if limits.insertionProbability ≥ 1 ∨
        (optional < limits.numOptionalValues ∧ draw c.position) then
      c :: buildLoop limits draw cs (some c) true (optional + 1)
    else buildLoop limits draw cs (some c) false optional

def buildLookupVector (limits : MemoryLimits) (draw : Int → Bool) : List (Cell V) :=
  P.buildLoop limits draw P.cells none true 0

/-- `LookupVector::findElement`: whether the value was found, and the two bounds.
`std::lower_bound` gives the first member that is not less than the value. -/
def findElement (vector : List (Cell V)) (v : V) : Bool × Int × Int :=
  let index := vector.findIdx fun c => !decide (c.value < v)
  match vector[index]? with
  | none => (false, 0, -1)
  | some c =>
    if c.value = v then (true, c.original, c.original)
    else if index = 0 then (false, 0, -1)
    else
      match vector[index - 1]? with
      | none => (false, 0, -1)
      | some b =>
        if P.preSortedAndNotNullable then (false, b.original, c.original)
        else (false, b.position, c.position)

/-! ## The search -/

/-- The cell at a position of the chunk that is open. -/
def itemAt (chunk pos : Int) : Option (Cell V) :=
  P.cells.find? fun c => decide (c.position = pos ∧ P.chunkOf c.position = chunk)

/-- The loop of `findPositionInArray`, in at most `fuel` rounds.  The division rounds towards
zero. -/
def search (chunk : Int) (input : V) : (fuel : Nat) → (start stop : Int) →
    Option (Except Fault (Option Int))
  | 0, _, _ => none
  | fuel + 1, start, stop =>
    if start < stop then
      let midPoint := Int.tdiv (start + stop) 2
      match P.itemAt chunk midPoint with
      | none => some (.error .noCurrentElement)
      | some item =>
        if item.value = input then
          some (.ok (some (if P.preSortedAndNotNullable then midPoint else item.original)))
        else if input < item.value then search chunk input fuel start midPoint
        else search chunk input fuel (midPoint + 1) stop
    else some (.ok none)

/-- `findPositionInArray`; the chunk that is open stays so if it is the right one. -/
def findPositionInArray (fuel : Nat) (current : Option Int) (input : V) (start stop : Int) :
    Option Int × Option (Except Fault (Option Int)) :=
  let chunkPos := P.chunkOf start
  let current := if current = some chunkPos then current else some chunkPos
  (current, P.search (current.getD chunkPos) input fuel start stop)

/-- `ValueIndex::findPosition` -/
def findPosition (fuel : Nat) (vector : List (Cell V)) (current : Option Int) (input : V) :
    Option Int × Option (Except Fault (Option Int)) :=
  match P.findElement vector input with
  | (true, lb, _) => (current, some (.ok (some lb)))
  | (false, lb, ub) =>
    if ub < lb then (current, some (.ok none))
    else P.findPositionInArray fuel current input lb ub

/-- The value that `IndexLookupChunkIterator::getItem` makes of an input value.  `none` is a
missing value. -/
def getItem (fuel : Nat) (vector : List (Cell V)) (current : Option Int) (input : Option V) :
    Option Int × Option (Except Fault (Option Int)) :=
  match input with
  | none => (current, some (.ok none))
  | some v => P.findPosition fuel vector current v

end Prepared

/-! ## Index arrays -/

/-- An index that is declared to be sorted, and whose attribute is not nullable. -/
structure SortedIndex (V : Type) [LinearOrder V] where
  dim : DimensionDesc
  first : Int
  values : List V
  increasing : values.Pairwise (· < ·)
  startMin_le : dim.startMin ≤ first
  le_endMax : first + values.length ≤ dim.endMax + 1

/-- Any other index: its cells may be missing values. -/
structure AnyIndex (V : Type) [LinearOrder V] where
  dim : DimensionDesc
  cells : OrdMap Int (Option V)
  distinct : ∀ k k' v, cells.get k = some (some v) → cells.get k' = some (some v) → k = k'

inductive Index (V : Type) [LinearOrder V] where
  | sorted (index : SortedIndex V)
  | any (index : AnyIndex V)

namespace AnyIndex

variable (A : AnyIndex V)

/-- The values of the index with their coordinates. -/
def pairs : List (V × Int) :=
  A.cells.entries.filterMap fun e => e.2.map fun v => (v, e.1)

/-- The pairs sorted by their values: the local and the distributed sort, without the tuples
that have a missing value. -/
def sortedPairs : List (V × Int) :=
  A.pairs.mergeSort fun x y => decide (x.1 ≤ y.1)

/-- The sorted array starts at 0 and has the chunk interval of the index. -/
def sortedDim : DimensionDesc :=
  .ofBounds 0 (2 ^ 62 - 1) A.dim.chunkInterval
    ⟨by decide, by decide, by decide, A.dim.interval_pos, A.dim.interval_lt⟩

theorem mem_pairs {v : V} {k : Int} : (v, k) ∈ A.pairs ↔ A.cells.get k = some (some v) := by
  rw [pairs, mem_filterMap]
  constructor
  · rintro ⟨⟨k', x⟩, he, heq⟩
    cases x with
    | none => cases heq
    | some v' =>
      cases heq
      exact OrdMap.mem_entries.mp he
  · intro h
    exact ⟨(k, some v), OrdMap.mem_entries.mpr h, rfl⟩

theorem perm_sortedPairs : A.sortedPairs.Perm A.pairs :=
  mergeSort_perm _ _

theorem nodup_pairs : A.pairs.Nodup := by
  refine List.Nodup.filterMap ?_ A.cells.sorted.nodup.of_map
  rintro ⟨k, x⟩ ⟨k', x'⟩ ⟨v, j⟩ hx hx'
  cases x with
  | none => cases hx
  | some w =>
    cases x' with
    | none => cases hx'
    | some w' =>
      cases hx
      cases hx'
      rfl

theorem sortedPairs_increasing : A.sortedPairs.Pairwise fun x y => x.1 < y.1 := by
  have hle : A.sortedPairs.Pairwise fun x y => x.1 ≤ y.1 := by
    have := pairwise_mergeSort' (fun x y : V × Int => x.1 ≤ y.1) A.pairs
    exact this
  have hnodup := A.perm_sortedPairs.nodup_iff.mpr A.nodup_pairs
  refine (hle.and hnodup).imp_of_mem ?_
  rintro ⟨v, k⟩ ⟨v', k'⟩ hx hy ⟨hle, hne⟩
  refine lt_of_le_of_ne hle ?_
  rintro rfl
  have hk := A.mem_pairs.mp (A.perm_sortedPairs.mem_iff.mp hx)
  have hk' := A.mem_pairs.mp (A.perm_sortedPairs.mem_iff.mp hy)
  exact hne (by rw [A.distinct k k' v hk hk'])

end AnyIndex

namespace Index

/-- `prepareIndexArray`: the index is sorted unless that is not necessary. -/
def prepareIndexArray (memberSize : {size : ℚ // 0 < size}) : Index V → Prepared V
  | .sorted S =>
    { dim := S.dim
      base := S.first
      items := S.values.zipIdx.map fun x => (x.1, S.first + x.2)
      increasing := by
        rw [pairwise_map]
        have := S.increasing
        rw [← zipIdx_map_fst 0 S.values, pairwise_map] at this
        exact this
      preSortedAndNotNullable := true
      original_eq := by
        intro _ k item hitem
        rw [getElem?_map, getElem?_zipIdx, Option.map_map] at hitem
        rcases Option.map_eq_some_iff.mp hitem with ⟨v, -, rfl⟩
        simp
      memberSize := memberSize }
  | .any A =>
    { dim := A.sortedDim
      base := 0
      items := A.sortedPairs
      increasing := A.sortedPairs_increasing
      preSortedAndNotNullable := false
      original_eq := fun h => by cases h
      memberSize := memberSize }

/-- The coordinate of the cell that holds a value. -/
def Holds (I : Index V) (v : V) (k : Int) : Prop :=
  match I with
  | .sorted S => ∃ n : Nat, S.values[n]? = some v ∧ k = S.first + n
  | .any A => A.cells.get k = some (some v)

/-- A lookup ends and is right, for every memory limit, every outcome of the sampling and
whatever chunk is open. -/
def Exact (I : Index V) (memberSize : {size : ℚ // 0 < size}) : Prop :=
  let P := I.prepareIndexArray memberSize
  ∀ (memLimit : ℚ) (draw : Int → Bool) (current : Option Int) (input : Option V),
    ∃ fuel result, (P.getItem fuel (P.buildLookupVector (P.computeVectorLimits memLimit) draw)
        current input).2 = some (.ok result) ∧
      ∀ k, result = some k ↔ ∃ v, input = some v ∧ I.Holds v k

end Index

/-! ## The sample -/

namespace Prepared

variable {P : Prepared V} {limits : MemoryLimits} {draw : Int → Bool} {cs A B : List (Cell V)}
  {c : Cell V} {previous : Option (Cell V)} {added : Bool} {optional : Nat}

/-- The members of the sample are cells, in their order.  The cell before is one of them if
it has not been added. -/
theorem buildLoop_sublist : (P.buildLoop limits draw cs previous added optional).Sublist
    ((if added then [] else previous.toList) ++ cs) := by
  induction cs generalizing previous added optional with
  | nil =>
    rw [append_nil]
    exact List.Sublist.refl _
  | cons c cs ih =>
    rw [buildLoop]
    split
    · refine (List.Sublist.refl _).append (List.Sublist.cons_cons c ?_)
      exact ih
    · split
      · refine List.Sublist.trans ?_ (sublist_append_right _ _)
        exact List.Sublist.cons_cons c ih
      · refine List.Sublist.trans ?_ (sublist_append_right _ _)
        exact ih

omit [LinearOrder V] in
theorem getLast?_or_cons (d : Cell V) (A : List (Cell V)) (previous : Option (Cell V)) :
    (d :: A).getLast?.or previous = A.getLast?.or (some d) := by
  rw [getLast?_cons]
  cases A.getLast? <;> rfl

/-- A member behind a cell, whatever happened to the cell. -/
theorem mem_buildLoop_cons {d : Cell V}
    (h : ∀ added optional, c ∈ P.buildLoop limits draw cs (some d) added optional) :
    c ∈ P.buildLoop limits draw (d :: cs) previous added optional := by
  rw [buildLoop]
  split
  · exact mem_append_right _ (mem_cons_of_mem d (h _ _))
  · split
    · exact mem_cons_of_mem d (h _ _)
    · exact h _ _

/-- The first cell of a chunk is a member. -/
theorem first_mem (hsplit : cs = A ++ c :: B) (hfirst : P.newChunk (A.getLast?.or previous) c) :
    c ∈ P.buildLoop limits draw cs previous added optional := by
  subst hsplit
  induction A generalizing previous added optional with
  | nil =>
    have hnew : P.newChunk previous c := hfirst
    rw [nil_append, buildLoop, if_pos hnew]
    exact mem_append_right _ mem_cons_self
  | cons d A ih =>
    rw [getLast?_or_cons] at hfirst
    exact mem_buildLoop_cons fun _ _ => ih hfirst

/-- A cell that was not added is a member if no other cell of its chunk follows. -/
theorem pending_mem (hlast : ∀ d, B.head? = some d → P.newChunk (some c) d) :
    c ∈ P.buildLoop limits draw B (some c) false optional := by
  cases B with
  | nil => exact mem_singleton_self c
  | cons d B =>
    rw [buildLoop, if_pos (hlast d rfl)]
    exact mem_cons_self

/-- The last cell of a chunk is a member. -/
theorem last_mem (hsplit : cs = A ++ c :: B)
    (hlast : ∀ d, B.head? = some d → P.newChunk (some c) d) :
    c ∈ P.buildLoop limits draw cs previous added optional := by
  subst hsplit
  induction A generalizing previous added optional with
  | nil =>
    rw [nil_append, buildLoop]
    split
    · exact mem_append_right _ mem_cons_self
    · split
      · exact mem_cons_self
      · exact pending_mem hlast
  | cons d A ih => exact mem_buildLoop_cons fun _ _ => ih

/-- All cells are members if they fit. -/
theorem buildLoop_all (hlimit : limits.insertionProbability ≥ 1) :
    P.buildLoop limits draw cs previous true optional = cs := by
  induction cs generalizing previous optional with
  | nil => rfl
  | cons c cs ih =>
    rw [buildLoop]
    split
    · rw [ih]
      rfl
    · rw [if_pos (.inl hlimit), ih]

/-- A cell is drawn if there is room for all that are. -/
theorem drawn_mem (hsplit : cs = A ++ c :: B) (hdraw : draw c.position)
    (hroom : optional + (cs.filter fun c => draw c.position).length ≤ limits.numOptionalValues) :
    c ∈ P.buildLoop limits draw cs previous added optional := by
  subst hsplit
  induction A generalizing previous added optional with
  | nil =>
    have hcount : ((c :: B).filter fun c => draw c.position).length =
        (B.filter fun c => draw c.position).length + 1 := by
      simp [hdraw]
    rw [nil_append] at hroom
    rw [nil_append, buildLoop]
    split
    · exact mem_append_right _ mem_cons_self
    · rw [if_pos (.inr ⟨by omega, hdraw⟩)]
      exact mem_cons_self
  | cons d A ih =>
    rw [cons_append] at hroom
    rw [cons_append, buildLoop]
    have hle : ((A ++ c :: B).filter fun c => draw c.position).length ≤
        ((d :: (A ++ c :: B)).filter fun c => draw c.position).length :=
      ((sublist_cons_self d _).filter _).length_le
    split
    · exact mem_append_right _ (mem_cons_of_mem d (ih (by omega)))
    · split
      · next hpick =>
          by_cases hd : draw d.position
          · have hcount : ((d :: (A ++ c :: B)).filter fun c => draw c.position).length =
                ((A ++ c :: B).filter fun c => draw c.position).length + 1 := by
              simp [hd]
            exact mem_cons_of_mem d (ih (by omega))
          · -- only possible when every cell is taken
            rcases hpick with hall | hpick
            · rw [buildLoop_all hall]
              exact mem_cons_of_mem d (by simp)
            · exact absurd hpick.2 hd
      · exact ih (by omega)

/-- A cell inside a chunk that is not drawn is no member. -/
theorem not_mem_of_not_drawn (hlimit : limits.insertionProbability < 1)
    (hsplit : cs = A ++ c :: B) (hnodup : (previous.toList ++ cs).Nodup)
    (hfirst : ¬P.newChunk (A.getLast?.or previous) c)
    (hlast : ∃ d, B.head? = some d ∧ ¬P.newChunk (some c) d) (hdraw : ¬draw c.position) :
    c ∉ P.buildLoop limits draw cs previous added optional := by
  subst hsplit
  induction A generalizing previous added optional with
  | nil =>
    rcases hlast with ⟨d, hd, hsame⟩
    cases B with
    | nil => cases hd
    | cons d' B =>
      cases hd
      have hold : ¬P.newChunk previous c := hfirst
      rw [nil_append, buildLoop, if_neg hold,
        if_neg (not_or.mpr ⟨not_le.mpr hlimit, fun h => hdraw h.2⟩), buildLoop, if_neg hsame]
      have hc : c ∉ d :: B := by
        have := List.Nodup.of_append_right hnodup
        rw [nil_append, nodup_cons] at this
        exact this.1
      rw [mem_cons, not_or] at hc
      have hrest : ∀ added optional, c ∉ P.buildLoop limits draw B (some d) added optional := by
        intro added optional hmem
        have hsub := buildLoop_sublist.subset hmem
        split at hsub
        · exact hc.2 hsub
        · rcases mem_append.mp hsub with hsub | hsub
          · exact hc.1 (by simpa using hsub)
          · exact hc.2 hsub
      split
      · rw [mem_cons, not_or]
        exact ⟨hc.1, hrest true _⟩
      · exact hrest false _
  | cons d A ih =>
    rw [getLast?_or_cons] at hfirst
    have hnodup' : ((some d).toList ++ (A ++ c :: B)).Nodup := List.Nodup.of_append_right hnodup
    have hrest : ∀ added optional, c ∉ P.buildLoop limits draw (A ++ c :: B) (some d) added
        optional := fun added optional => ih hfirst hnodup'
    have hne : c ≠ d := by
      rintro rfl
      rw [Option.toList_some, singleton_append, nodup_cons] at hnodup'
      exact hnodup'.1 (by simp)
    have hprev : c ∉ previous.toList := by
      intro hmem
      exact (disjoint_of_nodup_append hnodup) hmem (by simp)
    rw [cons_append, buildLoop]
    split
    · rw [mem_append, mem_cons, not_or, not_or]
      refine ⟨?_, hne, hrest true _⟩
      split
      · simp
      · exact hprev
    · split
      · rw [mem_cons, not_or]
        exact ⟨hne, hrest true _⟩
      · exact hrest false _

end Prepared

end SciDB.Operators.IndexLookup
