import SciDB.Aggregates.Grouping
import SciDB.Lib.Checked
import SciDB.Lib.Joins
import SciDB.Operators.Arrays

/-!
# The cumulate operator

`PhysicalCumulate` (`src/query/ops/aggregates/PhysicalCumulate.cpp`) aggregates along one
dimension of an array whose chunks are spread over instances.  Each instance computes the
edges of its chunks, which have the aggregate state of each line of cells through the
chunk, and sends them to all others.  Then it runs through its own chunks along each
vector of chunks and merges the remote edges in between.

Main results:

- Theorem {lit}`edgeVector_summarises`: what the edge of a chunk has.
- Theorem {lit}`allEdges_spec`: all instances together have the edges of all chunks.
-/

namespace SciDB.Aggregates.Cumulate

open SciDB.Distribution SciDB.Operators Joins OrderedMap List OrdMap

inductive Fault where
  /-- a failed `SCIDB_ASSERT` -/
  | assertion
deriving DecidableEq, Repr

/-! ## The input -/

/-- The input of the operator.  The array is given as a whole; each chunk is on one of
the instances. -/
structure Input where
  dims : List Dimension
  aggrDim : Fin dims.length
  array : ChunkedArray dims (Nat → Value)
  nInstances : Nat
  instanceOf : Coordinates → Fin nInstances

/-- The cells of a chunk that are visited by default: without the overlap. -/
def coreCells {R : Type} (dims : List Dimension) (c : Coordinates × Chunk R) :
    List (Coordinates × R) :=
  c.2.entries.filter fun e => decide (InChunk dims false c.1 e.1)

namespace Input

variable (I : Input)

/-- The part of the array that an instance has. -/
def onInstance (i : Fin I.nInstances) : ChunkedArray I.dims (Nat → Value) :=
  I.array.onInstance I.instanceOf i

/-- The coordinate in the aggregate dimension. -/
def along (pos : Coordinates) : Int :=
  pos.getD I.aggrDim 0

/-- `CoordinatesToKey::toKey` with the aggregate dimension as its only constraint. -/
def toKey (x : Int) (pos : Coordinates) : Coordinates :=
  pos.set I.aggrDim x

end Input

/-! ## Local edges -/

/-- `HashOfAggregateStates::accumulateOrMerge`.  The hash table is only looked up and
copied into a sorted map, so a sorted map stands for it. -/
def accumulateOrMerge (A : Aggregate) (hash : Chunk Value) (pos : Coordinates) (v : Value)
    (isState : Bool) : Chunk Value :=
  let state := (hash.get pos).getD A.initializeState
  hash.insert pos (if isState then A.mergeIfNeeded state v else A.accumulateIfNeeded state v)

namespace Input

variable (I : Input) (call : Call) (attr : Nat)

/-- The states of the cells of a chunk, one for each line along the aggregate dimension. -/
def edgeVector (c : Coordinates × Chunk (Nat → Value)) : Chunk Value :=
  (coreCells I.dims c).foldl (fun edge e =>
    accumulateOrMerge call.aggregate edge (I.toKey (I.along c.1) e.1) (e.2 attr) false)
    OrdMap.empty

/-- Whether the chunk is at the end of the aggregate dimension.  A sum that does not fit
into 64 bits wraps around; the edge is then built although nothing needs it. -/
def atEnd (pos : Coordinates) : Bool :=
  let dim := I.dims.get I.aggrDim
  decide (dim.endMax < Int.bmod (I.along pos + dim.chunkInterval) (2 ^ 64))

/-- The edge is written to a new chunk; `setPosition` must succeed for each state. -/
def writeEdge (c : Coordinates × Chunk (Nat → Value)) : Except Fault (Chunk Value) :=
  let edge := I.edgeVector call attr c
  if edge.entries.all fun e => decide (InChunk I.dims false c.1 e.1) then .ok edge
  else .error .assertion

/-- The edges of a list of chunks. -/
def writeEdges (chunks : List (Coordinates × Chunk (Nat → Value)))
    (edges : OrdMap Coordinates (Chunk Value)) : Except Fault (OrdMap Coordinates (Chunk Value)) :=
  match chunks with
  | [] => .ok edges
  | c :: chunks =>
    if I.atEnd c.1 then writeEdges chunks edges
    else do
      let edge ← I.writeEdge call attr c
      writeEdges chunks (edges.insert c.1 edge)

variable (i : Fin I.nInstances) {dims : List Dimension}

def buildLocalEdges : Except Fault (OrdMap Coordinates (Chunk Value)) :=
  I.writeEdges call attr (I.onInstance i).chunks.entries OrdMap.empty

/-- The chunks that an instance sends to all others. -/
def receive (edges localEdges : OrdMap Coordinates (Chunk Value)) :
    OrdMap Coordinates (Chunk Value) :=
  localEdges.entries.foldl (fun edges e => edges.insert e.1 e.2) edges

/-- `redistributeToRandomAccess` of the local edges of some instances. -/
def gatherEdges (instances : List (Fin I.nInstances))
    (edges : OrdMap Coordinates (Chunk Value)) : Except Fault (OrdMap Coordinates (Chunk Value)) :=
  match instances with
  | [] => .ok edges
  | i :: instances => do
      let localEdges ← I.buildLocalEdges call attr i
      gatherEdges instances (receive edges localEdges)

def allEdges : Except Fault (OrdMap Coordinates (Chunk Value)) :=
  I.gatherEdges call attr (List.finRange I.nInstances) OrdMap.empty

/-! ## Vectors of chunks -/

/-- `MapOfVectorsOfChunkPos`, after `append` of each position. -/
def vectors (positions : List Coordinates) : List (Coordinates × List Coordinates) :=
  build (I.toKey 0) id positions

/-- `buildMapOfVectorsInRemoteEdges` -/
def remoteVectors (allEdges localEdges : OrdMap Coordinates (Chunk Value)) :
    List (Coordinates × List Coordinates) :=
  I.vectors ((allEdges.entries.map Prod.fst).filter fun pos => (localEdges.get pos).isNone)

/-- `buildMapOfVectorsInInputArray` -/
def inputVectors : List (Coordinates × List Coordinates) :=
  I.vectors ((I.onInstance i).chunks.entries.map Prod.fst)

/-! ## Cumulating -/

/-- The states of a remote edge are merged into `beginEdge`. -/
def mergeEdge (beginEdge edge : Chunk Value) : Chunk Value :=
  edge.entries.foldl (fun beginEdge e =>
    accumulateOrMerge call.aggregate beginEdge (I.toKey 0 e.1) e.2 true) beginEdge

/-- The loop over the vector of remote edges, up to the coordinate of a chunk. -/
def mergeRemote (allEdges : OrdMap Coordinates (Chunk Value)) (x : Int) :
    List Coordinates → Chunk Value → Except Fault (List Coordinates × Chunk Value)
  | [], beginEdge => .ok ([], beginEdge)
  | r :: rs, beginEdge =>
    if I.along r ≥ x then .ok (r :: rs, beginEdge)
    else
      match allEdges.get r with
      | none => .error .assertion
      | some edge => mergeRemote allEdges x rs (I.mergeEdge call beginEdge edge)

/-- The loop over the cells of an input chunk. -/
def scan : List (Coordinates × (Nat → Value)) → Chunk Value →
    List (Coordinates × Value) × Chunk Value
  | [], beginEdge => ([], beginEdge)
  | e :: es, beginEdge =>
    let key := I.toKey 0 e.1
    let beginEdge := accumulateOrMerge call.aggregate beginEdge key (e.2 attr) false
    let result := call.aggregate.finalResult ((beginEdge.get key).getD (.null 0))
    let (out, beginEdge) := scan es beginEdge
    ((e.1, result) :: out, beginEdge)

/-- The loop over the chunks of a vector; the answer are the output chunks. -/
def cumulateVector (input : ChunkedArray I.dims (Nat → Value))
    (allEdges : OrdMap Coordinates (Chunk Value)) :
    List Coordinates → List Coordinates → Chunk Value →
      Except Fault (List (Coordinates × List (Coordinates × Value)))
  | [], _, _ => .ok []
  | pos :: vector, remote, beginEdge => do
      let (remote, beginEdge) ← I.mergeRemote call allEdges (I.along pos) remote beginEdge
      match input.chunks.get pos with
      | none => .error .assertion
      | some chunk =>
        let (out, beginEdge) := I.scan call attr (coreCells I.dims (pos, chunk)) beginEdge
        let rest ← cumulateVector input allEdges vector remote beginEdge
        .ok ((pos, out) :: rest)

/-- The loop over the vectors of the input. -/
def cumulateVectors (input : ChunkedArray I.dims (Nat → Value))
    (allEdges : OrdMap Coordinates (Chunk Value))
    (remote : List (Coordinates × List Coordinates)) :
    List (Coordinates × List Coordinates) →
      Except Fault (List (Coordinates × List (Coordinates × Value)))
  | [] => .ok []
  | v :: vectors => do
      let out ← I.cumulateVector call attr input allEdges v.2
        ((find v.1 remote).getD []) OrdMap.empty
      let rest ← cumulateVectors input allEdges remote vectors
      .ok (out ++ rest)

/-- The chunks that `execute` writes on an instance for one output attribute. -/
def execute :
    Except Fault (List (Coordinates × List (Coordinates × Value))) := do
  let localEdges ← I.buildLocalEdges call attr i
  let allEdges ← I.allEdges call attr
  I.cumulateVectors call attr (I.onInstance i) allEdges (I.remoteVectors allEdges localEdges)
    (I.inputVectors i)

/-! ## What it should compute -/

/-- All cells of the array. -/
def cells : List (Coordinates × (Nat → Value)) :=
  I.array.chunks.entries.flatMap (coreCells I.dims)

/-- The cells that agree with a position in every other dimension and do not come after it
in the aggregate dimension. -/
def upTo (pos : Coordinates) : List (Coordinates × (Nat → Value)) :=
  I.cells.filter fun e =>
    decide (e.1.eraseIdx I.aggrDim = pos.eraseIdx I.aggrDim ∧ I.along e.1 ≤ I.along pos)

/-- Each instance writes its chunks with their cells, and the value of a cell is the
aggregate of the cells up to it. -/
def Exact : Prop :=
  ∀ i, ∃ out, I.execute call attr i = .ok out ∧
    (out.map Prod.fst).Perm ((I.onInstance i).chunks.entries.map Prod.fst) ∧
    ∀ c ∈ out, ∃ chunk, I.array.chunks.get c.1 = some chunk ∧
      c.2 = (coreCells I.dims (c.1, chunk)).map fun e =>
        (e.1, call.meaning ((I.upTo e.1).map fun e => e.2 attr))

/-! ## Lines of cells -/

section Lines

variable {I : Input} {a b pos start : Coordinates} {x : Int}

theorem toKey_toKey (x y : Int) (pos : Coordinates) : I.toKey x (I.toKey y pos) = I.toKey x pos :=
  set_set _

/-- Whether two positions are on one line does not depend on the key's coordinate. -/
theorem toKey_congr (h : I.toKey 0 a = I.toKey 0 b) (x : Int) : I.toKey x a = I.toKey x b := by
  rw [← toKey_toKey, h, toKey_toKey]

variable {d : Nat}

theorem set_eq_iff_eraseIdx (hlen : a.length = b.length) (hd : d < a.length) :
    a.set d 0 = b.set d 0 ↔ a.eraseIdx d = b.eraseIdx d := by
  induction d generalizing a b with
  | zero =>
    cases a with
    | nil => cases hd
    | cons y a =>
      cases b with
      | nil => cases hlen
      | cons z b => simp
  | succ d ih =>
    cases a with
    | nil => cases hd
    | cons y a =>
      cases b with
      | nil => cases hlen
      | cons z b =>
        have := @ih a b (Nat.succ.inj hlen) (Nat.lt_of_succ_lt_succ hd)
        simp [this]

/-- Positions on one line are ordered by the coordinate along it. -/
theorem lt_iff_getD (hlen : a.length = b.length) (hd : d < a.length) (h : a.set d 0 = b.set d 0) :
    a < b ↔ a.getD d 0 < b.getD d 0 := by
  induction d generalizing a b with
  | zero =>
    cases a with
    | nil => cases hd
    | cons y a =>
      cases b with
      | nil => cases hlen
      | cons z b =>
        rw [set_cons_zero, set_cons_zero, List.cons.injEq] at h
        rw [cons_lt_cons_iff, h.2]
        simp
  | succ d ih =>
    cases a with
    | nil => cases hd
    | cons y a =>
      cases b with
      | nil => cases hlen
      | cons z b =>
        rw [set_cons_succ, set_cons_succ, List.cons.injEq] at h
        have ih := ih (Nat.succ.inj hlen) (Nat.lt_of_succ_lt_succ hd) h.2
        rw [cons_lt_cons_iff, h.1, ih]
        simp

theorem eq_of_getD (hlen : a.length = b.length) (hd : d < a.length) (h : a.set d 0 = b.set d 0)
    (hget : a.getD d 0 = b.getD d 0) : a = b := by
  rcases lt_trichotomy a b with hlt | heq | hlt
  · rw [lt_iff_getD hlen hd h] at hlt
    omega
  · exact heq
  · rw [lt_iff_getD hlen.symm (hlen ▸ hd) h.symm] at hlt
    omega

theorem getChunkPositionFor_set {dims : List DimensionDesc} {dim : DimensionDesc}
    (hd : dims[d]? = some dim) (pos : Coordinates) (x : Int) :
    getChunkPositionFor dims (pos.set d x) =
      (getChunkPositionFor dims pos).set d (getChunkPosition dim x) := by
  induction dims generalizing d pos with
  | nil => cases hd
  | cons dim' dims ih =>
    cases pos with
    | nil => rfl
    | cons y pos =>
      cases d with
      | zero =>
        cases hd
        rfl
      | succ d =>
        exact congrArg (getChunkPosition dim' y :: ·) (ih hd pos)

theorem getElem?_descs (d : Fin dims.length) :
    (descs dims)[d.1]? = some (dims.get d).toDimensionDesc := by
  rw [descs, getElem?_map, getElem?_eq_getElem]
  rfl

/-- The chunks of a line are in one vector. -/
theorem toKey_chunk (h : I.toKey 0 a = I.toKey 0 b) :
    I.toKey 0 (getChunkPositionFor (descs I.dims) a) =
      I.toKey 0 (getChunkPositionFor (descs I.dims) b) := by
  have ha := getChunkPositionFor_set (getElem?_descs I.aggrDim) a 0
  have hb := getChunkPositionFor_set (getElem?_descs I.aggrDim) b 0
  have hset : I.toKey _ (getChunkPositionFor (descs I.dims) a) =
      I.toKey _ (getChunkPositionFor (descs I.dims) b) :=
    ha.symm.trans ((congrArg (getChunkPositionFor (descs I.dims)) h).trans hb)
  rw [← toKey_toKey, hset, toKey_toKey]

theorem along_chunk (hlen : pos.length = I.dims.length) :
    I.along (getChunkPositionFor (descs I.dims) pos) =
      getChunkPosition (I.dims.get I.aggrDim).toDimensionDesc (I.along pos) := by
  rw [along, along, getChunkPositionFor, getD_eq_getElem?_getD, getElem?_zipWith,
    getElem?_descs, getElem?_eq_getElem (by omega), getD_eq_getElem _ _ (by omega)]
  rfl

end Lines

/-! ## The cells of a chunk -/

section Cells

variable {I : Input} {c : Coordinates × Chunk (Nat → Value)} {e : Coordinates × (Nat → Value)}

theorem length_chunk (hc : c ∈ I.array.chunks.entries) : c.1.length = I.dims.length := by
  have := (I.array.isChunkPosition c hc).length_eq
  rw [descs, length_map] at this
  exact this.symm

theorem inChunk_of_mem (he : e ∈ coreCells I.dims c) : InChunk I.dims false c.1 e.1 := by
  have := (mem_filter.mp he).2
  simpa using this

theorem length_cell (hc : c ∈ I.array.chunks.entries) (he : e ∈ coreCells I.dims c) :
    e.1.length = I.dims.length :=
  (inChunk_of_mem he).length_eq (length_chunk hc)

theorem chunk_of_cell (hc : c ∈ I.array.chunks.entries) (he : e ∈ coreCells I.dims c) :
    getChunkPositionFor (descs I.dims) e.1 = c.1 :=
  ((inChunk_core_iff (I.array.isChunkPosition c hc)).mp (inChunk_of_mem he)).2

/-- The cell of a line at the start of the chunk is in the chunk. -/
theorem inChunk_set {start pos : Coordinates} (d : Nat)
    (hs : IsChunkPosition (descs dims) start) (h : InChunk dims false start pos) :
    InChunk dims false start (pos.set d (start.getD d 0)) := by
  induction dims generalizing start pos d with
  | nil =>
    cases h.1
    exact h
  | cons dim dims ih =>
    cases hs with
    | cons hd hs =>
      cases pos with
      | nil => exact h
      | cons x pos =>
        rw [inChunk_cons] at h
        cases d with
        | zero =>
          refine inChunk_cons.mpr ⟨(Dimension.core_iff hd).mpr ⟨⟨hd.1, hd.2.1⟩, ?_⟩, h.2⟩
          exact (getChunkPosition_eq_iff hd.2.2).mpr
            ⟨le_refl _, Int.lt_add_of_pos_right _ dim.interval_pos⟩
        | succ d => exact inChunk_cons.mpr ⟨h.1, ih d hs h.2⟩

end Cells

/-! ## What the edges have -/

section Edges

variable {I : Input} {call : Call} {attr : Nat} {c : Coordinates × Chunk (Nat → Value)}

/-- The value of a cell that is aggregated. -/
def value (attr : Nat) (e : Coordinates × (Nat → Value)) : Value :=
  e.2 attr

/-- The state of each line of cells that has been seen. -/
def Cumulated (I : Input) (call : Call) (attr : Nat) (edge : Chunk Value)
    (cells : List (Coordinates × (Nat → Value))) : Prop :=
  Summarises call (value attr) (fun e => I.toKey 0 e.1) edge cells

theorem foldl_summarises {key : Coordinates × (Nat → Value) → Coordinates} {h : Chunk Value}
    {cells : List (Coordinates × (Nat → Value))} (hs : Summarises call (value attr) key h cells)
    (es : List (Coordinates × (Nat → Value))) :
    Summarises call (value attr) key (es.foldl (fun edge e =>
      accumulateOrMerge call.aggregate edge (key e) (e.2 attr) false) h) (cells ++ es) := by
  induction es generalizing h cells with
  | nil => rwa [append_nil]
  | cons e es ih =>
    rw [← singleton_append, ← append_assoc]
    exact ih (hs.accumulate e)

/-- The edge of a chunk has the state of each line of its cells. -/
theorem edgeVector_summarises (I : Input) (call : Call) (attr : Nat)
    (c : Coordinates × Chunk (Nat → Value)) :
    Summarises call (value attr) (fun e => I.toKey (I.along c.1) e.1) (I.edgeVector call attr c)
      (coreCells I.dims c) := by
  have hnil : Summarises call (value attr) (fun e => I.toKey (I.along c.1) e.1) OrdMap.empty [] :=
    summarises_nil
  exact foldl_summarises hnil (coreCells I.dims c)

/-- The edge of a chunk can be written. -/
theorem writeEdge_eq (hc : c ∈ I.array.chunks.entries) :
    I.writeEdge call attr c = .ok (I.edgeVector call attr c) := by
  have hall : ∀ e ∈ (I.edgeVector call attr c).entries, InChunk I.dims false c.1 e.1 := by
    intro e he
    rcases (edgeVector_summarises I call attr c).item he with ⟨x, hx, hkey⟩
    rw [← hkey]
    exact inChunk_set _ (I.array.isChunkPosition c hc) (inChunk_of_mem hx)
  rw [writeEdge, if_pos (by simpa using hall)]

/-- A map of edges has those of the chunks that were selected. -/
def HasEdges (I : Input) (call : Call) (attr : Nat) (p : Coordinates → Prop)
    (edges : OrdMap Coordinates (Chunk Value)) : Prop :=
  ∀ pos edge, edges.get pos = some edge ↔ p pos ∧ I.atEnd pos = false ∧
    ∃ chunk, I.array.chunks.get pos = some chunk ∧ edge = I.edgeVector call attr (pos, chunk)

variable {edges : OrdMap Coordinates (Chunk Value)} {p : Coordinates → Prop}

theorem HasEdges.congr {q : Coordinates → Prop} (hedges : I.HasEdges call attr p edges)
    (h : ∀ pos, p pos ↔ q pos) :
    I.HasEdges call attr q edges := by
  rwa [← funext fun pos => propext (h pos)]

theorem writeEdges_spec (hedges : I.HasEdges call attr p edges)
    {chunks : List (Coordinates × Chunk (Nat → Value))}
    (hchunks : ∀ c ∈ chunks, c ∈ I.array.chunks.entries) :
    ∃ edges', I.writeEdges call attr chunks edges = .ok edges' ∧
      I.HasEdges call attr (fun pos => p pos ∨ pos ∈ chunks.map Prod.fst) edges' := by
  induction chunks generalizing p edges with
  | nil => exact ⟨edges, rfl, by simpa using hedges⟩
  | cons c chunks ih =>
    have hc := hchunks c mem_cons_self
    have hget : I.array.chunks.get c.1 = some c.2 := mem_entries.mp hc
    rw [writeEdges]
    -- with the edge of the first chunk, if it is written
    have hrest : ∀ edges', I.HasEdges call attr (fun pos => p pos ∨ pos = c.1) edges' →
        ∃ edges'', I.writeEdges call attr chunks edges' = .ok edges'' ∧
          I.HasEdges call attr (fun pos => p pos ∨ pos ∈ (c :: chunks).map Prod.fst) edges'' := by
      intro edges' hedges'
      rcases ih hedges' (fun c hc => hchunks c (mem_cons_of_mem _ hc)) with
        ⟨edges'', hwrite, hspec⟩
      refine ⟨edges'', hwrite, hspec.congr fun pos => ?_⟩
      rw [map_cons, mem_cons, or_assoc]
    split
    next hend =>
      refine hrest edges ?_
      intro pos edge
      rw [hedges]
      constructor
      · rintro ⟨hp, h⟩
        exact ⟨.inl hp, h⟩
      · rintro ⟨hp | rfl, hnot, h⟩
        · exact ⟨hp, hnot, h⟩
        · rw [hend] at hnot
          cases hnot
    next hend =>
      rw [writeEdge_eq hc]
      refine hrest _ ?_
      intro pos edge
      rw [get_insert]
      by_cases hpos : pos = c.1
      · subst hpos
        rw [if_pos rfl, hget]
        constructor
        · rintro ⟨⟩
          exact ⟨.inr rfl, by simpa using hend, c.2, rfl, rfl⟩
        · rintro ⟨-, -, chunk, ⟨⟩, rfl⟩
          rfl
      · rw [if_neg hpos, hedges]
        simp [hpos]

theorem mem_local {i : Fin I.nInstances} :
    c ∈ (I.onInstance i).chunks.entries ↔ c ∈ I.array.chunks.entries ∧ I.instanceOf c.1 = i := by
  refine mem_filter.trans ?_
  rw [decide_eq_true_iff]

theorem hasEdges_empty (hp : ∀ pos, ¬p pos) : I.HasEdges call attr p OrdMap.empty := by
  intro pos edge
  simp [hp]

/-- An instance has the edges of its chunks. -/
theorem buildLocalEdges_spec (I : Input) (call : Call) (attr : Nat) (i : Fin I.nInstances) :
    ∃ edges, I.buildLocalEdges call attr i = .ok edges ∧
      I.HasEdges call attr (fun pos => I.instanceOf pos = i) edges := by
  have hempty : I.HasEdges call attr (fun _ => False) OrdMap.empty := hasEdges_empty fun _ => id
  rcases writeEdges_spec hempty (fun c hc => (mem_local.mp hc).1) with ⟨edges, hwrite, hspec⟩
  refine ⟨edges, hwrite, ?_⟩
  intro pos edge
  rw [hspec]
  constructor
  · rintro ⟨hfalse | hmem, h⟩
    · exact hfalse.elim
    · rcases mem_map.mp hmem with ⟨c, hc, rfl⟩
      exact ⟨(mem_local.mp hc).2, h⟩
  · rintro ⟨hi, hend, chunk, hget, h⟩
    exact ⟨.inr (mem_map.mpr ⟨(pos, chunk), mem_local.mpr ⟨mem_entries.mpr hget, hi⟩,
      rfl⟩), hend, chunk, hget, h⟩

/-- All instances together have the edges of all chunks. -/
theorem gatherEdges_spec {seen : Coordinates → Prop} (hedges : I.HasEdges call attr seen edges)
    (instances : List (Fin I.nInstances)) :
    ∃ edges', I.gatherEdges call attr instances edges = .ok edges' ∧
      I.HasEdges call attr (fun pos => seen pos ∨ I.instanceOf pos ∈ instances) edges' := by
  induction instances generalizing seen edges with
  | nil => exact ⟨edges, rfl, hedges.congr fun pos => by simp⟩
  | cons i instances ih =>
    rcases buildLocalEdges_spec I call attr i with ⟨localEdges, hbuild, hlocal⟩
    have hreceive : I.HasEdges call attr (fun pos => seen pos ∨ I.instanceOf pos = i)
        (receive edges localEdges) := by
      intro pos edge
      rw [receive, get_foldl_insert_of_sorted localEdges.sorted]
      change (localEdges.get pos).or (edges.get pos) = _ ↔ _
      cases hget : localEdges.get pos with
      | some edge' =>
        have hat := (hlocal pos edge').mp hget
        have := hlocal pos edge
        rw [hget] at this
        rw [Option.some_or, this]
        simp [hat.1]
      | none =>
        rw [Option.none_or, hedges]
        constructor
        · rintro ⟨hseen, h⟩
          exact ⟨.inl hseen, h⟩
        · rintro ⟨hseen | hi, h⟩
          · exact ⟨hseen, h⟩
          · have := (hlocal pos edge).mpr ⟨hi, h⟩
            rw [hget] at this
            cases this
    rcases ih hreceive with ⟨edges', hgather, hspec⟩
    refine ⟨edges', ?_, hspec.congr fun pos => ?_⟩
    · rw [gatherEdges, hbuild]
      exact hgather
    · rw [mem_cons, or_assoc]

theorem allEdges_spec (I : Input) (call : Call) (attr : Nat) :
    ∃ edges, I.allEdges call attr = .ok edges ∧ I.HasEdges call attr (fun _ => True) edges := by
  have hempty : I.HasEdges call attr (fun _ => False) OrdMap.empty := hasEdges_empty fun _ => id
  rcases gatherEdges_spec hempty (List.finRange I.nInstances) with ⟨edges, hgather, hspec⟩
  exact ⟨edges, hgather, hspec.congr fun pos => by simp⟩

end Edges

end Input

end SciDB.Aggregates.Cumulate
