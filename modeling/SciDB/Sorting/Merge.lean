import SciDB.Lib.Bisect

/-!
# Merging sorted runs

`MergeSortArray` (`src/array/MergeSortArray.cpp`) merges sorted arrays of tuples.  It
keeps the current tuple of every stream and a permutation of the streams in which the
tuples decrease, so that the smallest one is at the back; a stream that moves on is put
back in its place by a binary search.

Main results:

- Theorem {lit}`binarySearch_eq`: the search finds the place of a tuple.
- Theorem {lit}`fillChunk_spec`: a chunk takes the smallest tuples in order.
- Theorem {lit}`mergeSortArray_spec`: the merged array is a run of all tuples.
-/

namespace SciDB.Sorting

open List

/-! ## Comparators and the quicksort -/

/-- The sign of a comparison tells in which order two elements are, every two elements
are in some order, and the order is transitive. -/
structure IsTotalPreorder {α : Type} (compare : α → α → Int) : Prop where
  sign : ∀ a b, 0 < compare a b ↔ compare b a < 0
  trans : ∀ {a b c}, compare a b ≤ 0 → compare b c ≤ 0 → compare a c ≤ 0

/-- `TupleComparator` -/
structure TupleComparator (T : Type) where
  compare : T → T → Int
  isTotalPreorder : IsTotalPreorder compare

/-- `iqsort`, of which it is assumed that it sorts. -/
structure Quicksort where
  iqsort : {α : Type} → (α → α → Int) → List α → List α
  perm : ∀ {α : Type} {compare : α → α → Int}, IsTotalPreorder compare →
    ∀ l, (iqsort compare l).Perm l
  sorted : ∀ {α : Type} {compare : α → α → Int}, IsTotalPreorder compare →
    ∀ l, (iqsort compare l).Pairwise fun a b => compare a b ≤ 0

/-- The assumption can be met: insertion sort does. -/
def insertionSort : Quicksort where
  iqsort compare l := l.insertionSort fun a b => compare a b ≤ 0
  perm _ l := perm_insertionSort _ l
  sorted {α compare} h l := by
    have : Std.Total fun a b => compare a b ≤ 0 := ⟨fun a b => by have := h.sign a b; omega⟩
    have : IsTrans α fun a b => compare a b ≤ 0 := ⟨fun a b c => h.trans⟩
    exact pairwise_insertionSort _ l

/-- What makes a job of the sort fail. -/
inductive SortFault
  /-- `SCIDB_LE_HIGH_SHOULDNT_BE_LESS_LOW` and `SCIDB_LE_MAX_TOO_LARGE` -/
  | badDimension
  /-- `SCIDB_LE_CHUNK_OUT_OF_BOUNDARIES` -/
  | chunkOutOfBoundaries
  /-- an access past the end of a vector -/
  | outOfRange
  /-- a loop that does not end -/
  | endless
  /-- a job or the main thread is not at the step it is asked to take -/
  | notEnabled
deriving DecidableEq, Repr

/-- `CoordinateBounds::getMax` -/
def getMax : Nat := 2 ^ 62 - 1

/-! ## Arrays of tuples -/

/-- A `MemArray` of one dimension: each chunk has a position and the tuples from there on. -/
structure MemArray (T : Type) where
  chunks : List (Nat × List T)

namespace MemArray

variable {T : Type}

/-- The tuples in the order of their positions. -/
def tuples (r : MemArray T) : List T :=
  r.chunks.flatMap Prod.snd

/-- The tuples with their positions. -/
def cells (r : MemArray T) : List (T × Nat) :=
  r.chunks.flatMap fun c => c.2.zipIdx c.1

end MemArray

/-- Each chunk starts where the one before it ends. -/
def Consecutive {T : Type} : Nat → List (Nat × List T) → Prop
  | _, [] => True
  | p, c :: chunks => c.1 = p ∧ Consecutive (p + c.2.length) chunks

theorem flatMap_zipIdx {T : Type} {chunks : List (Nat × List T)} {p : Nat}
    (h : Consecutive p chunks) :
    chunks.flatMap (fun c => c.2.zipIdx c.1) = (chunks.flatMap Prod.snd).zipIdx p := by
  induction chunks generalizing p with
  | nil => rfl
  | cons c chunks ih =>
    rcases h with ⟨rfl, h⟩
    rw [flatMap_cons, flatMap_cons, zipIdx_append, ih h]

section

variable {T : Type} (comp : TupleComparator T)

/-- The tuples do not decrease. -/
def Ordered (l : List T) : Prop :=
  l.Pairwise fun a b => comp.compare a b ≤ 0

/-- A sorted run: its tuples are at consecutive positions from zero on, do not decrease
and have coordinates. -/
structure IsRun (r : MemArray T) : Prop where
  consecutive : Consecutive 0 r.chunks
  ordered : Ordered comp r.tuples
  length_le : r.tuples.length ≤ getMax + 1

end

/-! ## Streams -/

/-- A stream that is not at its end: the current tuple, the others of the current chunk,
the later chunks and how many tuples may still be read. -/
structure Stream (T : Type) where
  tuple : T
  chunk : List T
  chunks : List (List T)
  size : Nat

namespace Stream

variable {T : Type}

/-- Move to the next chunk that is not empty. -/
def next (size : Nat) : List (List T) → Option (Stream T)
  | [] => none
  | [] :: chunks => next size chunks
  | (t :: chunk) :: chunks => some ⟨t, chunk, chunks, size⟩

/-- How the constructor of `MergeSortArray` opens a stream. -/
def openStream (size : Nat) (chunks : List (List T)) : Option (Stream T) :=
  if size > 0 then next size chunks else none

/-- Move on after the current tuple was written. -/
def advance (s : Stream T) : Option (Stream T) :=
  if s.size - 1 = 0 then none else next (s.size - 1) (s.chunk :: s.chunks)

/-- The tuples the stream still has. -/
def remaining (s : Stream T) : List T :=
  s.tuple :: (s.chunk :: s.chunks).flatten

theorem next_spec (size : Nat) (chunks : List (List T)) :
    match next size chunks with
    | none => chunks.flatten = []
    | some s => s.remaining = chunks.flatten ∧ s.size = size := by
  fun_induction next size chunks with
  | case1 => rfl
  | case2 chunks ih => simpa using ih
  | case3 t chunk chunks => exact ⟨by simp [remaining], rfl⟩

/-- As long as the counter does not run out, a stream moves on to the rest of its tuples. -/
theorem advance_spec {s : Stream T} (hsize : s.remaining.length ≤ s.size) :
    match s.advance with
    | none => s.remaining = [s.tuple]
    | some s' => s.remaining = s.tuple :: s'.remaining ∧ s'.remaining.length ≤ s'.size := by
  rw [advance, remaining] at *
  by_cases h : s.size - 1 = 0
  · rw [if_pos h]
    have : (s.chunk :: s.chunks).flatten.length = 0 := by
      rw [length_cons] at hsize
      omega
    rw [length_eq_zero_iff.mp this]
  · rw [if_neg h]
    have hnext := next_spec (s.size - 1) (s.chunk :: s.chunks)
    cases hs : next (s.size - 1) (s.chunk :: s.chunks) with
    | none =>
      rw [hs] at hnext
      exact congrArg _ hnext
    | some s' =>
      rw [hs] at hnext
      rw [length_cons, ← hnext.1] at hsize
      refine ⟨congrArg _ hnext.1.symm, ?_⟩
      omega

end Stream

/-! ## Merging -/

section

variable {T : Type} (comp : TupleComparator T)

/-- `binarySearch`: the place of a tuple among the streams of the permutation. -/
def binarySearch (permutation : List (Stream T)) (tuple : T) : Except SortFault Nat :=
  Bisect.bisect (fun m =>
    match permutation[m]? with
    | none => .error .outOfRange
    | some s => .ok (if comp.compare s.tuple tuple > 0 then .lt else .gt))
    permutation.length 0 permutation.length

/-- Put a stream back after its tuple was written, unless it is at its end. -/
def putBack (permutation : List (Stream T)) :
    Option (Stream T) → Except SortFault (List (Stream T))
  | none => .ok permutation
  | some s => do
      let i ← binarySearch comp permutation s.tuple
      return permutation.insertIdx i s

/-- The loop of `moveNext`, which writes at most `room` tuples to a chunk. -/
def fillChunk : (room : Nat) → List (Stream T) → Except SortFault (List T × List (Stream T))
  | 0, permutation => .ok ([], permutation)
  | room + 1, permutation =>
    match permutation.getLast? with
    | none => .ok ([], permutation)
    | some min => do
        let permutation ← putBack comp permutation.dropLast min.advance
        let (items, permutation) ← fillChunk room permutation
        return (min.tuple :: items, permutation)

/-- Call `moveNext` until there are no more tuples, at most `fuel` times.  A chunk ends
where the output does, and it cannot start behind that. -/
def moveAll (chunkSize : Nat) : (fuel chunkPos : Nat) → List (Stream T) →
    Except SortFault (List (Nat × List T))
  | _, _, [] => .ok []
  | 0, _, _ :: _ => .error .endless
  | fuel + 1, chunkPos, s :: permutation =>
    if chunkPos > getMax then .error .chunkOutOfBoundaries
    else do
      let (items, permutation) ←
        fillChunk comp (min chunkSize (getMax + 1 - chunkPos)) (s :: permutation)
      let chunks ← moveAll chunkSize fuel (chunkPos + chunkSize) permutation
      return (chunkPos, items) :: chunks

/-- The streams of a merge job, `-1` being their sizes, in the order of the permutation. -/
def openStreams (quicksort : Quicksort) (runs : List (MemArray T)) : List (Stream T) :=
  quicksort.iqsort (fun s s' => -comp.compare s.tuple s'.tuple)
    (runs.filterMap fun r => Stream.openStream (2 ^ 64 - 1) (r.chunks.map Prod.snd))

/-- `MergeSortArray`, copied to a `MemArray`. -/
def mergeSortArray (quicksort : Quicksort) (chunkSize : Nat) (runs : List (MemArray T)) :
    Except SortFault (MemArray T) := do
  let streams := openStreams comp quicksort runs
  let chunks ← moveAll comp chunkSize (streams.flatMap Stream.remaining).length 0 streams
  return ⟨chunks⟩

end

/-! ## The merge is right -/

section

variable {T : Type} {comp : TupleComparator T} {permutation rest : List (Stream T)} {t : T}
  {min : Stream T} {chunkSize : Nat} {runs : List (MemArray T)}

namespace IsTotalPreorder

variable {α : Type} {compare : α → α → Int} {a b : α}

variable (h : IsTotalPreorder compare)

include h

theorem refl (a : α) : compare a a ≤ 0 := by
  have := h.sign a a
  omega

theorem flip : compare a b ≤ 0 ↔ 0 ≤ compare b a := by
  have := h.sign a b
  omega

/-- The order of the streams: the opposite of that of their tuples. -/
theorem reverse {β : Type} (f : β → α) : IsTotalPreorder fun x y => -compare (f x) (f y) where
  sign x y := by
    have := h.sign (f y) (f x)
    omega
  trans {x y z} hxy hyz := by
    have hyx : compare (f y) (f x) ≤ 0 := h.flip.mpr (by omega)
    have hzy : compare (f z) (f y) ≤ 0 := h.flip.mpr (by omega)
    have := h.flip.mp (h.trans hzy hyx)
    omega

end IsTotalPreorder

/-- The current tuples of the streams do not increase. -/
def Descending (comp : TupleComparator T) (permutation : List (Stream T)) : Prop :=
  permutation.Pairwise fun s s' => comp.compare s'.tuple s.tuple ≤ 0

/-- The streams with larger tuples are in front. -/
theorem Descending.split (h : Descending comp permutation) (t : T) :
    ∃ larger smaller, permutation = larger ++ smaller ∧
      (∀ s ∈ larger, 0 < comp.compare s.tuple t) ∧
      ∀ s ∈ smaller, comp.compare s.tuple t ≤ 0 := by
  induction permutation with
  | nil => exact ⟨[], [], rfl, by simp, by simp⟩
  | cons s permutation ih =>
    rcases pairwise_cons.mp h with ⟨hs, hrest⟩
    by_cases hst : 0 < comp.compare s.tuple t
    · rcases ih hrest with ⟨larger, smaller, rfl, hlarger, hsmaller⟩
      exact ⟨s :: larger, smaller, rfl, forall_mem_cons.mpr ⟨hst, hlarger⟩, hsmaller⟩
    · have hst : comp.compare s.tuple t ≤ 0 := not_lt.mp hst
      refine ⟨[], s :: permutation, rfl, by simp, forall_mem_cons.mpr ⟨hst, ?_⟩⟩
      intro s' hs'
      exact comp.isTotalPreorder.trans (hs s' hs') hst

/-- The search finds the place behind the streams with larger tuples. -/
theorem binarySearch_eq {larger smaller : List (Stream T)}
    (hlarger : ∀ s ∈ larger, 0 < comp.compare s.tuple t)
    (hsmaller : ∀ s ∈ smaller, comp.compare s.tuple t ≤ 0) :
    binarySearch comp (larger ++ smaller) t = .ok larger.length := by
  apply Bisect.bisect_eq (Nat.zero_le _) (by simp) (by simp)
  · intro m hm
    left
    rw [getElem?_append_left hm, getElem?_eq_getElem hm]
    simp [hlarger _ (getElem_mem hm)]
  · intro m hm hlt
    rw [length_append] at hlt
    have hm' : m - larger.length < smaller.length := by omega
    rw [getElem?_append_right hm, getElem?_eq_getElem hm']
    simp [(hsmaller _ (getElem_mem hm')).not_gt]

theorem insertIdx_length {α : Type} (l r : List α) (x : α) :
    (l ++ r).insertIdx l.length x = l ++ x :: r := by
  induction l with
  | nil => rfl
  | cons y l ih => exact congrArg (y :: ·) ih

/-- A stream is put back in its place. -/
theorem putBack_spec (h : Descending comp permutation) (s : Stream T) :
    ∃ permutation', putBack comp permutation (some s) = .ok permutation' ∧
      permutation'.Perm (s :: permutation) ∧ Descending comp permutation' := by
  rcases h.split s.tuple with ⟨larger, smaller, rfl, hlarger, hsmaller⟩
  refine ⟨larger ++ s :: smaller, ?_, perm_middle, ?_⟩
  · rw [putBack, binarySearch_eq hlarger hsmaller]
    exact congrArg Except.ok (insertIdx_length larger smaller s)
  · rw [Descending, pairwise_append] at h ⊢
    refine ⟨h.1, pairwise_cons.mpr ⟨hsmaller, h.2.1⟩, ?_⟩
    intro s' hs' s'' hs''
    rcases mem_cons.mp hs'' with rfl | hs''
    · have := comp.isTotalPreorder.sign s'.tuple s''.tuple
      have := hlarger s' hs'
      omega
    · exact h.2.2 s' hs' s'' hs''

/-- What holds between two writes: the streams are in order, each of them has its tuples
in order and its counter does not run out. -/
structure MergeInv (comp : TupleComparator T) (permutation : List (Stream T)) : Prop where
  descending : Descending comp permutation
  ordered : ∀ s ∈ permutation, Ordered comp s.remaining
  size : ∀ s ∈ permutation, s.remaining.length ≤ s.size

/-- All tuples that are not written yet. -/
def unwritten (permutation : List (Stream T)) : List T :=
  permutation.flatMap Stream.remaining

/-- The last stream has the smallest tuple. -/
theorem MergeInv.min_le (h : MergeInv comp (rest ++ [min])) (ht : t ∈ unwritten (rest ++ [min])) :
    comp.compare min.tuple t ≤ 0 := by
  rcases mem_flatMap.mp ht with ⟨s, hs, ht⟩
  have hmin : comp.compare min.tuple s.tuple ≤ 0 := by
    rcases mem_append.mp hs with hs | hs
    · exact (pairwise_append.mp h.descending).2.2 s hs min (mem_singleton_self min)
    · rw [mem_singleton.mp hs]
      exact comp.isTotalPreorder.refl _
  have hs := h.ordered s hs
  rw [Stream.remaining, Ordered, pairwise_cons] at hs
  rcases mem_cons.mp ht with rfl | ht
  · exact hmin
  · exact comp.isTotalPreorder.trans hmin (hs.1 t ht)

/-- Writing the smallest tuple and moving its stream on. -/
theorem MergeInv.write (h : MergeInv comp (rest ++ [min])) :
    ∃ permutation', putBack comp rest min.advance = .ok permutation' ∧
      MergeInv comp permutation' ∧
      (unwritten (rest ++ [min])).Perm (min.tuple :: unwritten permutation') := by
  have hrest : Descending comp rest := (pairwise_append.mp h.descending).1
  have hmin : min ∈ rest ++ [min] := by simp
  have hsum : (unwritten (rest ++ [min])).Perm (min.remaining ++ unwritten rest) := by
    rw [unwritten, flatMap_append, flatMap_singleton]
    exact perm_append_comm
  have hadvance := Stream.advance_spec (h.size min hmin)
  cases hs : min.advance with
  | none =>
    rw [hs] at hadvance
    rw [hadvance] at hsum
    refine ⟨rest, rfl, ⟨hrest, fun s hs => ?_, fun s hs => ?_⟩, hsum⟩
    · exact h.ordered s (mem_append_left _ hs)
    · exact h.size s (mem_append_left _ hs)
  | some s =>
    rw [hs] at hadvance
    rcases putBack_spec hrest s with ⟨permutation', hput, hperm, hdesc⟩
    have hordered := h.ordered min hmin
    rw [hadvance.1] at hsum hordered
    refine ⟨permutation', hput, ⟨hdesc, fun s' hs' => ?_, fun s' hs' => ?_⟩, ?_⟩
    · rcases mem_cons.mp (hperm.mem_iff.mp hs') with rfl | hs'
      · exact (pairwise_cons.mp hordered).2
      · exact h.ordered s' (mem_append_left _ hs')
    · rcases mem_cons.mp (hperm.mem_iff.mp hs') with rfl | hs'
      · exact hadvance.2
      · exact h.size s' (mem_append_left _ hs')
    · refine hsum.trans (List.Perm.cons _ ?_)
      exact (hperm.flatMap_right Stream.remaining).symm

/-- A chunk takes the smallest tuples in order, until it is full or there are no more. -/
theorem fillChunk_spec (room : Nat) (h : MergeInv comp permutation) :
    ∃ items permutation', fillChunk comp room permutation = .ok (items, permutation') ∧
      MergeInv comp permutation' ∧
      (unwritten permutation).Perm (items ++ unwritten permutation') ∧
      Ordered comp items ∧ (∀ t ∈ items, ∀ t' ∈ unwritten permutation', comp.compare t t' ≤ 0) ∧
      items.length ≤ room ∧ (items.length = room ∨ permutation' = []) := by
  induction room generalizing permutation with
  | zero =>
    exact ⟨[], permutation, rfl, h, .refl _, .nil, by simp, le_rfl, .inl rfl⟩
  | succ room ih =>
    rcases eq_nil_or_concat' permutation with rfl | ⟨rest, min, rfl⟩
    · exact ⟨[], [], rfl, h, .refl _, .nil, by simp, by simp, .inr rfl⟩
    · rcases h.write with ⟨permutation', hput, hinv, hperm⟩
      rcases ih hinv with ⟨items, permutation'', hfill, hinv', hperm', hordered, hle, hlen, hend⟩
      have hall := hperm.trans (hperm'.cons min.tuple)
      refine ⟨min.tuple :: items, permutation'', ?_, hinv', hall, ?_, ?_, ?_, ?_⟩
      · rw [fillChunk, getLast?_concat, dropLast_concat]
        simp only [hput]
        change (fillChunk comp room permutation' >>= _) = _
        rw [hfill]
        rfl
      · refine pairwise_cons.mpr ⟨fun t ht => h.min_le (hall.mem_iff.mpr ?_), hordered⟩
        simp [ht]
      · intro t ht t' ht'
        rcases mem_cons.mp ht with rfl | ht
        · exact h.min_le (hall.mem_iff.mpr (by simp [ht']))
        · exact hle t ht t' ht'
      · simpa using hlen
      · simpa using hend

@[simp]
theorem unwritten_nil : unwritten ([] : List (Stream T)) = [] :=
  rfl

theorem unwritten_pos {s : Stream T} : 0 < (unwritten (s :: permutation)).length := by
  simp [unwritten, Stream.remaining]

theorem moveAll_nil (chunkSize fuel chunkPos : Nat) :
    moveAll comp chunkSize fuel chunkPos [] = .ok [] := by
  cases fuel <;> rfl

/-- The chunks from a position on follow each other and hold the tuples of the streams in
order, and the tuples have coordinates. -/
structure Merged (comp : TupleComparator T) (chunkPos : Nat) (permutation : List (Stream T))
    (chunks : List (Nat × List T)) : Prop where
  consecutive : Consecutive chunkPos chunks
  perm : (chunks.flatMap Prod.snd).Perm (unwritten permutation)
  ordered : Ordered comp (chunks.flatMap Prod.snd)
  length_le : permutation ≠ [] → chunkPos + (unwritten permutation).length ≤ getMax + 1

theorem Merged.nil (chunkPos : Nat) : Merged comp chunkPos [] [] :=
  ⟨trivial, .refl _, .nil, fun h => (h rfl).elim⟩

/-- The calls of `moveNext` merge the streams, unless there are more tuples than
coordinates. -/
theorem moveAll_spec {fuel : Nat} (chunkPos : Nat) (hsize : 0 < chunkSize)
    (h : MergeInv comp permutation) (hfuel : (unwritten permutation).length ≤ fuel) :
    moveAll comp chunkSize fuel chunkPos permutation = .error .chunkOutOfBoundaries ∨
      ∃ chunks, moveAll comp chunkSize fuel chunkPos permutation = .ok chunks ∧
        Merged comp chunkPos permutation chunks := by
  induction fuel generalizing chunkPos permutation with
  | zero =>
    cases permutation with
    | nil => exact .inr ⟨[], rfl, .nil chunkPos⟩
    | cons s permutation =>
      have hpos : 0 < (unwritten (s :: permutation)).length := unwritten_pos
      omega
  | succ fuel ih =>
    cases permutation with
    | nil => exact .inr ⟨[], rfl, .nil chunkPos⟩
    | cons s permutation =>
      rw [moveAll]
      by_cases hpos : chunkPos > getMax
      · rw [if_pos hpos]
        exact .inl rfl
      rw [if_neg hpos]
      rcases fillChunk_spec (min chunkSize (getMax + 1 - chunkPos)) h with
        ⟨items, permutation', hfill, hinv, hperm, hordered, hle, hroom, hend⟩
      have hlen := hperm.length_eq
      rw [length_append] at hlen
      have hitems : 0 < items.length := by
        rcases hend with hend | rfl
        · omega
        · have : 0 < (unwritten (s :: permutation)).length := unwritten_pos
          rw [unwritten_nil, length_nil] at hlen
          omega
      rw [hfill]
      change (moveAll comp chunkSize fuel (chunkPos + chunkSize) permutation' >>= _) = _ ∨
        ∃ chunks, (moveAll comp chunkSize fuel (chunkPos + chunkSize) permutation' >>= _) = _ ∧ _
      rcases ih (chunkPos + chunkSize) hinv (by omega) with
        herror | ⟨chunks, hchunks, hmerged⟩
      · rw [herror]
        exact .inl rfl
      · rw [hchunks]
        refine .inr ⟨(chunkPos, items) :: chunks, rfl, ?_, ?_, ?_, ?_⟩
        · refine ⟨rfl, ?_⟩
          by_cases hnil : permutation' = []
          · subst hnil
            rw [moveAll_nil] at hchunks
            cases hchunks
            trivial
          · -- there are tuples behind this chunk, so it is full
            have hbound := hmerged.length_le hnil
            have hroom := hend.resolve_right hnil
            have heq : items.length = chunkSize := by omega
            exact heq ▸ hmerged.consecutive
        · exact (hmerged.perm.append_left items).trans hperm.symm
        · refine pairwise_append.mpr ⟨hordered, hmerged.ordered, ?_⟩
          intro t ht t' ht'
          exact hle t ht t' (hmerged.perm.mem_iff.mp ht')
        · intro _
          by_cases hnil : permutation' = []
          · subst hnil
            rw [unwritten_nil, length_nil] at hlen
            omega
          · have hbound := hmerged.length_le hnil
            omega

/-- The streams of sorted runs are opened in order. -/
theorem mergeInv_openStreams (quicksort : Quicksort) (h : ∀ r ∈ runs, IsRun comp r) :
    MergeInv comp (openStreams comp quicksort runs) := by
  have hpre := comp.isTotalPreorder.reverse Stream.tuple
  have hperm := quicksort.perm hpre
    (runs.filterMap fun r => Stream.openStream (2 ^ 64 - 1) (r.chunks.map Prod.snd))
  have hopen : ∀ s ∈ openStreams comp quicksort runs,
      ∃ r ∈ runs, s.remaining = r.tuples ∧ s.size = 2 ^ 64 - 1 := by
    intro s hs
    rcases mem_filterMap.mp (hperm.mem_iff.mp hs) with ⟨r, hr, hs⟩
    refine ⟨r, hr, ?_⟩
    have hnext := Stream.next_spec (2 ^ 64 - 1) (r.chunks.map Prod.snd)
    rw [Stream.openStream, if_pos (by decide)] at hs
    rw [hs] at hnext
    exact hnext
  refine ⟨?_, fun s hs => ?_, fun s hs => ?_⟩
  · refine (quicksort.sorted hpre _).imp fun hs => ?_
    exact comp.isTotalPreorder.flip.mpr (by omega)
  · rcases hopen s hs with ⟨r, hr, hrem, _⟩
    rw [hrem]
    exact (h r hr).ordered
  · rcases hopen s hs with ⟨r, hr, hrem, hsize⟩
    have hle := (h r hr).length_le
    rw [hrem]
    rw [getMax] at hle
    omega

theorem unwritten_openStreams (comp : TupleComparator T) (quicksort : Quicksort)
    (runs : List (MemArray T)) :
    (unwritten (openStreams comp quicksort runs)).Perm (runs.flatMap MemArray.tuples) := by
  refine ((quicksort.perm (comp.isTotalPreorder.reverse Stream.tuple) _).flatMap_right _).trans ?_
  induction runs with
  | nil => exact .refl _
  | cons r runs ih =>
    have hnext := Stream.next_spec (2 ^ 64 - 1) (r.chunks.map Prod.snd)
    rw [flatMap_cons, filterMap_cons, Stream.openStream]
    cases hs : Stream.next (2 ^ 64 - 1) (r.chunks.map Prod.snd) with
    | none =>
      rw [hs, ← flatMap_def] at hnext
      rw [MemArray.tuples, hnext]
      exact ih
    | some s =>
      rw [hs, ← flatMap_def] at hnext
      rw [MemArray.tuples, ← hnext.1]
      exact ih.append_left _

/-- Merging sorted runs gives a sorted run of all their tuples, unless there are more of
them than coordinates. -/
theorem mergeSortArray_spec (quicksort : Quicksort) (hsize : 0 < chunkSize)
    (h : ∀ r ∈ runs, IsRun comp r) :
    mergeSortArray comp quicksort chunkSize runs = .error .chunkOutOfBoundaries ∨
      ∃ r, mergeSortArray comp quicksort chunkSize runs = .ok r ∧ IsRun comp r ∧
        r.tuples.Perm (runs.flatMap MemArray.tuples) := by
  have hperm := unwritten_openStreams comp quicksort runs
  rcases moveAll_spec 0 hsize (mergeInv_openStreams quicksort h) le_rfl with
    herror | ⟨chunks, hchunks, hmerged⟩
  · left
    change (moveAll comp chunkSize (unwritten (openStreams comp quicksort runs)).length 0
      (openStreams comp quicksort runs) >>= _) = _
    rw [herror]
    rfl
  · right
    refine ⟨⟨chunks⟩, ?_, ⟨hmerged.consecutive, hmerged.ordered, ?_⟩, hmerged.perm.trans hperm⟩
    · change (moveAll comp chunkSize (unwritten (openStreams comp quicksort runs)).length 0
        (openStreams comp quicksort runs) >>= _) = _
      rw [hchunks]
      rfl
    · rw [MemArray.tuples, hmerged.perm.length_eq]
      by_cases hnil : openStreams comp quicksort runs = []
      · rw [hnil]
        exact Nat.zero_le _
      · have := hmerged.length_le hnil
        omega

end

end SciDB.Sorting
