import SciDB.Aggregates.Cumulate

/-!
# Cumulate is a prefix aggregate

An instance runs through its chunks of a vector.  When it comes to a chunk, `beginEdge` has
the states of all chunks of the vector that lie before it: its own ones, and the remote
ones that were merged.

Main results:

- Theorem {lit}`mergeRemote_spec`: the remote edges that are merged before a chunk.
- Theorem {lit}`upTo_perm`: the cells that a state has seen are those of the prefix.
- Theorem {lit}`cumulate_exact`: each cell gets the aggregate of the cells up to it.
-/

namespace SciDB.Aggregates.Cumulate.Input

open SciDB.Distribution SciDB.Operators Joins OrderedMap List OrdMap

variable {I : Input} {call : Call} {attr : Nat} {c : Coordinates × Chunk (Nat → Value)}

/-! ## Chunks along the aggregate dimension -/

section Along

variable {c c' : Coordinates × Chunk (Nat → Value)} {e e' : Coordinates × (Nat → Value)}
  {a b : Coordinates}

section

variable (hc : c ∈ I.array.chunks.entries)

include hc

theorem isChunkStart_along : (I.dims.get I.aggrDim).IsChunkStart (I.along c.1) := by
  have hlen := length_chunk hc
  have hall := forall₂_iff_get.mp (I.array.isChunkPosition c hc)
  have hd := I.aggrDim.2
  have := hall.2 I.aggrDim.1 (by rw [descs, length_map]; exact hd) (by omega)
  rw [along, getD_eq_getElem _ _ (by omega)]
  simpa [descs] using this

/-- Different chunks are at least an interval apart. -/
theorem along_add_le (hc' : c' ∈ I.array.chunks.entries) (h : I.along c.1 < I.along c'.1) :
    I.along c.1 + (I.dims.get I.aggrDim).chunkInterval ≤ I.along c'.1 := by
  have hdvd := Int.dvd_sub (isChunkStart_along hc').2.2 (isChunkStart_along hc).2.2
  have := Int.le_of_dvd (by omega) hdvd
  omega

/-- A chunk with another one behind it is not at the end. -/
theorem atEnd_eq_false (hc' : c' ∈ I.array.chunks.entries) (h : I.along c.1 < I.along c'.1) :
    I.atEnd c.1 = false := by
  have hle := along_add_le hc hc' h
  have hstart := (isChunkStart_along hc).1
  have hend := (isChunkStart_along hc').2.1
  have hmin := (I.dims.get I.aggrDim).getMin_le
  have hmax := (I.dims.get I.aggrDim).le_getMax
  have hpos := (I.dims.get I.aggrDim).interval_pos
  rw [atEnd, decide_eq_false_iff_not, Int.bmod_eq_of_le (by omega) (by omega)]
  omega

/-- Cells are ordered as their chunks are. -/
theorem along_mono (hc' : c' ∈ I.array.chunks.entries) (he : e ∈ coreCells I.dims c)
    (he' : e' ∈ coreCells I.dims c') (h : I.along e.1 ≤ I.along e'.1) :
    I.along c.1 ≤ I.along c'.1 := by
  rw [← chunk_of_cell hc he, ← chunk_of_cell hc' he', along_chunk (length_cell hc he),
    along_chunk (length_cell hc' he')]
  exact getChunkPosition_mono h

end

/-- Positions on one line are ordered along it. -/
theorem lt_iff_along (ha : a.length = I.dims.length) (hb : b.length = I.dims.length)
    (h : I.toKey 0 a = I.toKey 0 b) :
    a < b ↔ I.along a < I.along b :=
  lt_iff_getD (ha.trans hb.symm) (I.aggrDim.2.trans_eq ha.symm) h

end Along

/-! ## The cells of some chunks -/

/-- The cells of the chunk at a position. -/
def cellsOf (I : Input) (pos : Coordinates) : List (Coordinates × (Nat → Value)) :=
  coreCells I.dims (pos, (I.array.chunks.get pos).getD OrdMap.empty)

theorem cellsOf_eq (hc : c ∈ I.array.chunks.entries) : I.cellsOf c.1 = coreCells I.dims c := by
  have hget : I.array.chunks.get c.1 = some c.2 := mem_entries.mp hc
  rw [cellsOf, hget]
  rfl

theorem nodup_coreCells (c : Coordinates × Chunk (Nat → Value)) : (coreCells I.dims c).Nodup := by
  have hsorted : Sorted (coreCells I.dims c) := c.2.sorted.sublist filter_sublist
  exact hsorted.nodup.of_map

/-- Different chunks have different cells. -/
theorem nodup_cells {ps : List Coordinates} (hps : ps.Nodup)
    (hchunk : ∀ p ∈ ps, ∃ c ∈ I.array.chunks.entries, c.1 = p) :
    (ps.flatMap I.cellsOf).Nodup := by
  rw [nodup_flatMap]
  refine ⟨fun p _ => nodup_coreCells _, hps.imp_of_mem ?_⟩
  intro p p' hp hp' hne x hx hx'
  rcases hchunk p hp with ⟨c, hc, rfl⟩
  rcases hchunk p' hp' with ⟨c', hc', rfl⟩
  rw [cellsOf_eq hc] at hx
  rw [cellsOf_eq hc'] at hx'
  exact hne ((chunk_of_cell hc hx).symm.trans (chunk_of_cell hc' hx'))

theorem nodup_all : I.cells.Nodup := by
  have := nodup_cells I.array.chunks.sorted.nodup (fun p hp => by simpa using hp)
  rw [flatMap_map] at this
  have hcells : I.cells = I.array.chunks.entries.flatMap fun c => I.cellsOf c.1 := by
    rw [cells, flatMap_def]
    congr 1
    apply map_congr_left
    intro c hc
    exact (cellsOf_eq hc).symm
  rwa [hcells]

/-! ## One vector -/

/-- The chunks of a vector as an instance sees them: its own ones, and the edges that come
from others. -/
structure IsVector (I : Input) (i : Fin I.nInstances) (key : Coordinates)
    (vector remote : List Coordinates) : Prop where
  mem_vector : ∀ p, p ∈ vector ↔
    (∃ c ∈ I.array.chunks.entries, c.1 = p) ∧ I.instanceOf p = i ∧ I.toKey 0 p = key
  mem_remote : ∀ p, p ∈ remote ↔ (∃ c ∈ I.array.chunks.entries, c.1 = p) ∧
    I.atEnd p = false ∧ I.instanceOf p ≠ i ∧ I.toKey 0 p = key
  sorted_vector : vector.Pairwise fun p p' => I.along p < I.along p'
  sorted_remote : remote.Pairwise fun p p' => I.along p < I.along p'

section Vector

variable {i : Fin I.nInstances} {key pos : Coordinates}
  {front vector taken remote : List Coordinates}

/-- The chunks before a chunk of the vector. -/
theorem mem_before (hv : I.IsVector i key (front ++ pos :: vector) (taken ++ remote))
    (htaken : ∀ r ∈ taken, I.along r < I.along pos)
    (hremote : ∀ r ∈ remote, I.along pos ≤ I.along r)
    (hc : c ∈ I.array.chunks.entries) :
    c.1 ∈ front ++ taken ↔ I.toKey 0 c.1 = key ∧ I.along c.1 < I.along pos := by
  have hpos := (hv.mem_vector pos).mp (by simp)
  rcases hpos with ⟨⟨c', hc', rfl⟩, hi', hkey'⟩
  have hsorted := hv.sorted_vector
  rw [pairwise_append, pairwise_cons] at hsorted
  rw [mem_append]
  constructor
  · rintro (hmem | hmem)
    · exact ⟨((hv.mem_vector c.1).mp (by simp [hmem])).2.2, hsorted.2.2 c.1 hmem c'.1 mem_cons_self⟩
    · exact ⟨((hv.mem_remote c.1).mp (by simp [hmem])).2.2.2, htaken c.1 hmem⟩
  · rintro ⟨hkey, hlt⟩
    by_cases hi : I.instanceOf c.1 = i
    · have hmem := (hv.mem_vector c.1).mpr ⟨⟨c, hc, rfl⟩, hi, hkey⟩
      rw [mem_append, mem_cons] at hmem
      rcases hmem with hmem | heq | hmem
      · exact .inl hmem
      · rw [heq] at hlt
        omega
      · have := hsorted.2.1.1 c.1 hmem
        omega
    · have hmem := (hv.mem_remote c.1).mpr ⟨⟨c, hc, rfl⟩, atEnd_eq_false hc hc' hlt, hi, hkey⟩
      rw [mem_append] at hmem
      rcases hmem with hmem | hmem
      · exact .inr hmem
      · have := hremote c.1 hmem
        omega

theorem nodup_before (hv : I.IsVector i key (front ++ vector) (taken ++ remote)) :
    (front ++ taken).Nodup := by
  have hnodup : ∀ l : List Coordinates, l.Pairwise (fun p p' => I.along p < I.along p') → l.Nodup :=
    fun l h => h.imp fun hlt heq => hlt.ne (congrArg I.along heq)
  rw [nodup_append]
  refine ⟨hnodup _ (pairwise_append.mp hv.sorted_vector).1,
    hnodup _ (pairwise_append.mp hv.sorted_remote).1, ?_⟩
  intro p hp p' hp' heq
  have hlocal := ((hv.mem_vector p).mp (by simp [hp])).2.1
  exact ((hv.mem_remote p').mp (by simp [hp'])).2.2.1 (heq ▸ hlocal)

/-- The cells that a state has seen are those of the prefix. -/
theorem upTo_perm (hv : I.IsVector i key (front ++ pos :: vector) (taken ++ remote))
    (htaken : ∀ r ∈ taken, I.along r < I.along pos)
    (hremote : ∀ r ∈ remote, I.along pos ≤ I.along r)
    {es es' : List (Coordinates × (Nat → Value))} {e : Coordinates × (Nat → Value)}
    (hes : I.cellsOf pos = es ++ e :: es') :
    (((front ++ taken).flatMap I.cellsOf ++ (es ++ [e])).filter fun x =>
      decide (I.toKey 0 x.1 = I.toKey 0 e.1)).Perm (I.upTo e.1) := by
  have hpos := (hv.mem_vector pos).mp (by simp)
  rcases hpos with ⟨⟨c, hc, rfl⟩, -, hkey⟩
  have hchunks : ∀ p ∈ front ++ taken, ∃ c ∈ I.array.chunks.entries, c.1 = p :=
    forall_mem_append.mpr ⟨fun p hp => ((hv.mem_vector p).mp (by simp [hp])).1,
      fun p hp => ((hv.mem_remote p).mp (by simp [hp])).1⟩
  rw [cellsOf_eq hc] at hes
  have he : e ∈ coreCells I.dims c := by simp [hes]
  have hsub : (es ++ [e]).Sublist (coreCells I.dims c) := by simp [hes]
  have hsorted : Sorted (coreCells I.dims c) := c.2.sorted.sublist filter_sublist
  have hlenE := length_cell hc he
  have hnodup : ((front ++ taken).flatMap I.cellsOf ++ (es ++ [e])).Nodup := by
    rw [nodup_append]
    refine ⟨nodup_cells (nodup_before hv) hchunks, (nodup_coreCells c).sublist hsub, ?_⟩
    rintro x hx y hy rfl
    rcases mem_flatMap.mp hx with ⟨p, hp, hx⟩
    rcases hchunks p hp with ⟨c', hc', rfl⟩
    rw [cellsOf_eq hc'] at hx
    have heq := (chunk_of_cell hc' hx).symm.trans (chunk_of_cell hc (hsub.subset hy))
    have := ((mem_before hv htaken hremote hc').mp hp).2
    rw [heq] at this
    omega
  rw [upTo, perm_ext_iff_of_nodup (hnodup.filter _) (nodup_all.filter _)]
  intro x
  rw [mem_filter, mem_filter, decide_eq_true_iff, decide_eq_true_iff, cells,
    mem_flatMap, mem_append, mem_flatMap]
  -- the cells of a line, in the words of `upTo`
  have hline : ∀ c' ∈ I.array.chunks.entries, x ∈ coreCells I.dims c' →
      (I.toKey 0 x.1 = I.toKey 0 e.1 ↔ x.1.eraseIdx I.aggrDim = e.1.eraseIdx I.aggrDim) := by
    intro c' hc' hx
    have hlen := length_cell hc' hx
    exact set_eq_iff_eraseIdx (hlen.trans hlenE.symm) (I.aggrDim.2.trans_eq hlen.symm)
  constructor
  · rintro ⟨⟨p, hp, hx⟩ | hx, hon⟩
    · rcases hchunks p hp with ⟨c', hc', rfl⟩
      rw [cellsOf_eq hc'] at hx
      refine ⟨⟨c', hc', hx⟩, (hline c' hc' hx).mp hon, ?_⟩
      have hlt := ((mem_before hv htaken hremote hc').mp hp).2
      by_contra hgt
      have := along_mono hc hc' he hx (not_le.mp hgt).le
      omega
    · have hxc := hsub.subset hx
      refine ⟨⟨c, hc, hxc⟩, (hline c hc hxc).mp hon, ?_⟩
      rcases mem_append.mp hx with hx | hx
      · have hlt : x.1 < e.1 := by
          rw [hes, Sorted, pairwise_append] at hsorted
          exact hsorted.2.2 x hx e mem_cons_self
        exact ((lt_iff_along (length_cell hc hxc) hlenE hon).mp hlt).le
      · rw [mem_singleton.mp hx]
  · rintro ⟨⟨c', hc', hx⟩, hon, hle⟩
    have hon := (hline c' hc' hx).mpr hon
    -- the cells of a line are in the chunks of a vector
    have hvec := toKey_chunk hon
    rw [chunk_of_cell hc' hx, chunk_of_cell hc he] at hvec
    refine ⟨?_, hon⟩
    by_cases hlt : I.along c'.1 < I.along c.1
    · left
      exact ⟨c'.1, (mem_before hv htaken hremote hc').mpr ⟨hvec.trans hkey, hlt⟩,
        by rwa [cellsOf_eq hc']⟩
    · right
      have halong : I.along c'.1 = I.along c.1 :=
        (along_mono hc' hc hx he hle).antisymm (not_lt.mp hlt)
      have hsame := eq_of_getD ((length_chunk hc').trans (length_chunk hc).symm)
        (I.aggrDim.2.trans_eq (length_chunk hc').symm) hvec halong
      have hxc : x ∈ coreCells I.dims c := by
        rw [← cellsOf_eq hc, ← hsame, cellsOf_eq hc']
        exact hx
      rw [hes, ← singleton_append, ← append_assoc, mem_append] at hxc
      rcases hxc with hxc | hxc
      · exact hxc
      · have hlt : e.1 < x.1 := by
          rw [hes, Sorted, pairwise_append, pairwise_cons] at hsorted
          exact hsorted.2.1.1 x hxc
        have := (lt_iff_along hlenE (length_cell hc' hx) hon.symm).mp hlt
        omega

end Vector

/-! ## Remote edges -/

section Remote

variable {edges : OrdMap Coordinates (Chunk Value)} {beginEdge : Chunk Value}
  {cells : List (Coordinates × (Nat → Value))}

theorem mergeEdge_cumulated (h : I.Cumulated call attr beginEdge cells) (pos : Coordinates) :
    I.Cumulated call attr (I.mergeEdge call beginEdge (I.edgeVector call attr
      (pos, (I.array.chunks.get pos).getD OrdMap.empty))) (cells ++ I.cellsOf pos) := by
  have hkey : (fun e : Coordinates × (Nat → Value) => I.toKey 0 e.1) =
      fun e => I.toKey 0 (I.toKey (I.along pos) e.1) :=
    funext fun e => (toKey_toKey 0 (I.along pos) e.1).symm
  rw [Cumulated, hkey] at h ⊢
  refine h.mergeAll (edgeVector_summarises I call attr _) ?_
  intro x _ y _ heq
  have := toKey_congr heq (I.along pos)
  rwa [toKey_toKey, toKey_toKey] at this

/-- The remote edges that are merged before a chunk are those that lie before it. -/
theorem mergeRemote_spec (h : I.Cumulated call attr beginEdge cells) (x : Int)
    {remote : List Coordinates} (hsorted : remote.Pairwise fun p p' => I.along p < I.along p')
    (hedges : ∀ r ∈ remote, edges.get r = some (I.edgeVector call attr
      (r, (I.array.chunks.get r).getD OrdMap.empty))) :
    ∃ taken rest beginEdge', I.mergeRemote call edges x remote beginEdge = .ok (rest, beginEdge') ∧
      remote = taken ++ rest ∧ (∀ r ∈ taken, I.along r < x) ∧ (∀ r ∈ rest, x ≤ I.along r) ∧
      I.Cumulated call attr beginEdge' (cells ++ taken.flatMap I.cellsOf) := by
  induction remote generalizing beginEdge cells with
  | nil => exact ⟨[], [], beginEdge, rfl, rfl, by simp, by simp, by simpa using h⟩
  | cons r remote ih =>
    rw [pairwise_cons] at hsorted
    rw [mergeRemote]
    split
    next hx =>
      refine ⟨[], r :: remote, beginEdge, rfl, rfl, by simp, ?_, by simpa using h⟩
      intro r' hr'
      rcases mem_cons.mp hr' with rfl | hr'
      · exact hx
      · have := hsorted.1 r' hr'
        omega
    next hx =>
      rw [hedges r mem_cons_self]
      rcases ih (mergeEdge_cumulated h r) hsorted.2
        (fun r' hr' => hedges r' (mem_cons_of_mem r hr')) with
        ⟨taken, rest, beginEdge', hmerge, hsplit, htaken, hrest, hcum⟩
      refine ⟨r :: taken, rest, beginEdge', hmerge, by rw [hsplit]; rfl, ?_, hrest, ?_⟩
      · exact forall_mem_cons.mpr ⟨by omega, htaken⟩
      · rwa [flatMap_cons, ← append_assoc]

/-! ## Cells of a chunk -/

/-- The output for a cell. -/
def prefixed (I : Input) (call : Call) (attr : Nat) (e : Coordinates × (Nat → Value)) :
    Coordinates × Value :=
  (e.1, call.meaning ((I.upTo e.1).map fun e => e.2 attr))

/-- The output for a chunk. -/
def outputOf (I : Input) (call : Call) (attr : Nat) (pos : Coordinates) :
    Coordinates × List (Coordinates × Value) :=
  (pos, (I.cellsOf pos).map (I.prefixed call attr))

theorem scan_spec (h : I.Cumulated call attr beginEdge cells)
    {es : List (Coordinates × (Nat → Value))}
    (hperm : ∀ seen e rest, es = seen ++ e :: rest → ((cells ++ (seen ++ [e])).filter fun x =>
        decide (I.toKey 0 x.1 = I.toKey 0 e.1)).Perm (I.upTo e.1)) :
    ∃ beginEdge', I.scan call attr es beginEdge = (es.map (I.prefixed call attr), beginEdge') ∧
      I.Cumulated call attr beginEdge' (cells ++ es) := by
  induction es generalizing beginEdge cells with
  | nil => exact ⟨beginEdge, rfl, by rwa [append_nil]⟩
  | cons e es ih =>
    have hacc := h.accumulate e
    have hrest : ∀ seen e' rest, es = seen ++ e' :: rest →
        ((cells ++ [e] ++ (seen ++ [e'])).filter fun x =>
          decide (I.toKey 0 x.1 = I.toKey 0 e'.1)).Perm (I.upTo e'.1) := by
      intro seen e' rest heq
      have := hperm (e :: seen) e' rest (by rw [heq]; rfl)
      rwa [cons_append, ← singleton_append, ← append_assoc] at this
    rcases ih hacc hrest with ⟨beginEdge', hscan, hcum⟩
    refine ⟨beginEdge', ?_, by rwa [append_assoc] at hcum⟩
    have hvalue : call.aggregate.finalResult
        (((accumulateOrMerge call.aggregate beginEdge (I.toKey 0 e.1) (e.2 attr) false).get
          (I.toKey 0 e.1)).getD (.null 0)) = (I.prefixed call attr e).2 := by
      have hget : (accumulateOrMerge call.aggregate beginEdge (I.toKey 0 e.1) (e.2 attr)
          false).get (I.toKey 0 e.1) = some (call.run _) :=
        (hacc (I.toKey 0 e.1)).trans (summary_of_ne_nil (by simp))
      rw [hget]
      refine (congrArg call.aggregate.finalResult (call.run_perm ?_)).trans
        (call.finalResult_run ((I.upTo e.1).map (value attr)))
      have hfirst := hperm [] e es rfl
      rw [nil_append] at hfirst
      convert hfirst.map (value attr)
    rw [scan]
    rw [hvalue]
    have hscan' : I.scan call attr es (accumulateOrMerge call.aggregate beginEdge
        (I.toKey 0 e.1) (e.2 attr) false) = _ := hscan
    rw [hscan']
    rfl

end Remote

/-! ## Vectors and instances -/

section Run

variable {i : Fin I.nInstances} {key : Coordinates} {front vector taken remote : List Coordinates}
  {edges allEdges localEdges : OrdMap Coordinates (Chunk Value)} {beginEdge : Chunk Value}

theorem cumulateVector_spec (hv : I.IsVector i key (front ++ vector) (taken ++ remote))
    (htaken : ∀ r ∈ taken, ∀ pos ∈ vector, I.along r < I.along pos)
    (hedges : ∀ r ∈ remote, edges.get r = some (I.edgeVector call attr
      (r, (I.array.chunks.get r).getD OrdMap.empty)))
    (h : I.Cumulated call attr beginEdge ((front ++ taken).flatMap I.cellsOf)) :
    I.cumulateVector call attr (I.onInstance i) edges vector remote beginEdge =
      .ok (vector.map (I.outputOf call attr)) := by
  induction vector generalizing front taken remote beginEdge with
  | nil => rfl
  | cons pos vector ih =>
    rcases mergeRemote_spec h (I.along pos) (pairwise_append.mp hv.sorted_remote).2.1 hedges
      with ⟨merged, rest, beginEdge₁, hmerge, rfl, hmerged, hrest, hcum⟩
    rw [← flatMap_append, append_assoc] at hcum
    rw [← append_assoc] at hv
    have hbefore : ∀ r ∈ taken ++ merged, I.along r < I.along pos :=
      forall_mem_append.mpr ⟨fun r hr => htaken r hr pos mem_cons_self, hmerged⟩
    have hpos := (hv.mem_vector pos).mp (by simp)
    rcases hpos with ⟨⟨c, hc, rfl⟩, hi, -⟩
    have hget : (I.onInstance i).chunks.get c.1 = some c.2 :=
      mem_entries.mp (mem_local.mpr ⟨hc, hi⟩)
    rcases scan_spec hcum (fun seen e rest heq => upTo_perm hv hbefore hrest heq) with
      ⟨beginEdge₂, hscan, hcum₂⟩
    have hcum₃ : I.Cumulated call attr beginEdge₂
        ((front ++ [c.1] ++ (taken ++ merged)).flatMap I.cellsOf) := by
      refine hcum₂.perm ?_
      simp only [flatMap_append, flatMap_cons, append_assoc]
      refine List.Perm.append_left _ ?_
      rw [← append_assoc]
      exact perm_append_comm
    have hsorted := (pairwise_append.mp hv.sorted_vector).2.1
    rw [pairwise_cons] at hsorted
    have hv' : I.IsVector i key ((front ++ [c.1]) ++ vector) ((taken ++ merged) ++ rest) := by
      rwa [append_assoc]
    have ih := ih hv' (fun r hr p hp => (hbefore r hr).trans (hsorted.1 p hp))
      (fun r hr => hedges r (mem_append_right merged hr)) hcum₃
    rw [cellsOf_eq hc] at hscan
    rw [cumulateVector, hmerge]
    dsimp only [bind, Except.bind]
    rw [hget]
    dsimp only
    rw [hscan]
    rw [ih, map_cons, outputOf, cellsOf_eq hc]

/-- The vector that an instance has under a key. -/
theorem isVector (hlocal : I.HasEdges call attr (fun pos => I.instanceOf pos = i) localEdges)
    (hall : I.HasEdges call attr (fun _ => True) allEdges) {v : Coordinates × List Coordinates}
    (hv : v ∈ I.inputVectors i) :
    I.IsVector i v.1 v.2 ((find v.1 (I.remoteVectors allEdges localEdges)).getD []) := by
  rw [mem_build hv, remoteVectors, vectors, find_build, getD_bucketOf, map_id, map_id]
  have hsorted : ∀ {α : Type} (m : OrdMap Coordinates α) (p : Coordinates → Bool),
      (∀ e ∈ m.entries, ∃ c ∈ I.array.chunks.entries, c.1 = e.1) →
      (((m.entries.map Prod.fst).filter p).filter fun pos =>
        decide (I.toKey 0 pos = v.1)).Pairwise fun p p' => I.along p < I.along p' := by
    intro α m p hchunk
    have hlt : (m.entries.map Prod.fst).Pairwise (· < ·) := pairwise_map.mpr m.sorted
    refine ((hlt.filter p).filter _).imp_of_mem ?_
    intro a b ha hb hab
    have hchunk' : ∀ a ∈ ((m.entries.map Prod.fst).filter p).filter fun pos =>
        decide (I.toKey 0 pos = v.1), a.length = I.dims.length ∧ I.toKey 0 a = v.1 := by
      intro a ha
      rw [mem_filter, mem_filter, mem_map] at ha
      rcases ha with ⟨⟨⟨e, he, rfl⟩, -⟩, hkey⟩
      rcases hchunk e he with ⟨c, hc, heq⟩
      exact ⟨heq ▸ length_chunk hc, by simpa using hkey⟩
    rcases hchunk' a ha with ⟨hla, hka⟩
    rcases hchunk' b hb with ⟨hlb, hkb⟩
    exact (lt_iff_along hla hlb (hka.trans hkb.symm)).mp hab
  constructor
  · intro p
    rw [mem_filter, mem_map, decide_eq_true_iff]
    constructor
    · rintro ⟨⟨c, hc, rfl⟩, hkey⟩
      exact ⟨⟨c, (mem_local.mp hc).1, rfl⟩, (mem_local.mp hc).2, hkey⟩
    · rintro ⟨⟨c, hc, rfl⟩, hi, hkey⟩
      exact ⟨⟨c, mem_local.mpr ⟨hc, hi⟩, rfl⟩, hkey⟩
  · intro p
    rw [mem_filter, mem_filter, mem_map, decide_eq_true_iff]
    constructor
    · rintro ⟨⟨⟨e, he, rfl⟩, hnone⟩, hkey⟩
      rcases (hall e.1 e.2).mp (mem_entries.mp he) with ⟨-, hend, chunk, hget, heq⟩
      refine ⟨⟨(e.1, chunk), mem_entries.mpr hget, rfl⟩, hend, ?_, hkey⟩
      intro hi
      rw [(hlocal e.1 e.2).mpr ⟨hi, hend, chunk, hget, heq⟩] at hnone
      cases hnone
    · rintro ⟨⟨c, hc, rfl⟩, hend, hi, hkey⟩
      have hget := (hall c.1 _).mpr ⟨trivial, hend, c.2, mem_entries.mp hc, rfl⟩
      refine ⟨⟨⟨_, mem_entries.mpr hget, rfl⟩, ?_⟩, hkey⟩
      cases hloc : localEdges.get c.1 with
      | none => rfl
      | some edge => exact absurd ((hlocal c.1 edge).mp hloc).1 hi
  · have := hsorted (I.onInstance i).chunks (fun _ => true)
      (fun e he => ⟨e, (mem_local.mp he).1, rfl⟩)
    rwa [filter_true] at this
  · refine hsorted allEdges _ ?_
    intro e he
    rcases (hall e.1 e.2).mp (mem_entries.mp he) with ⟨-, -, chunk, hget, -⟩
    exact ⟨(e.1, chunk), mem_entries.mpr hget, rfl⟩

theorem cumulateVectors_spec
    (hlocal : I.HasEdges call attr (fun pos => I.instanceOf pos = i) localEdges)
    (hall : I.HasEdges call attr (fun _ => True) allEdges)
    {vs : List (Coordinates × List Coordinates)} (hvs : ∀ v ∈ vs, v ∈ I.inputVectors i) :
    I.cumulateVectors call attr (I.onInstance i) allEdges (I.remoteVectors allEdges localEdges) vs =
      .ok ((vs.flatMap Prod.snd).map (I.outputOf call attr)) := by
  induction vs with
  | nil => rfl
  | cons v vs ih =>
    have hvec : I.IsVector i v.1 ([] ++ v.2)
        ([] ++ (find v.1 (I.remoteVectors allEdges localEdges)).getD []) :=
      isVector hlocal hall (hvs v mem_cons_self)
    have hedges : ∀ r ∈ (find v.1 (I.remoteVectors allEdges localEdges)).getD [],
        allEdges.get r = some (I.edgeVector call attr
          (r, (I.array.chunks.get r).getD OrdMap.empty)) := by
      intro r hr
      rcases (hvec.mem_remote r).mp hr with ⟨⟨c, hc, rfl⟩, hend, -, -⟩
      have hget : I.array.chunks.get c.1 = some c.2 := mem_entries.mp hc
      exact (hall c.1 _).mpr ⟨trivial, hend, c.2, hget, by rw [hget]; rfl⟩
    have hrun : I.cumulateVector call attr (I.onInstance i) allEdges v.2
        ((find v.1 (I.remoteVectors allEdges localEdges)).getD []) OrdMap.empty = _ :=
      cumulateVector_spec hvec (by simp) hedges summarises_nil
    rw [cumulateVectors, hrun, ih fun v hv => hvs v (mem_cons_of_mem _ hv),
      flatMap_cons, map_append]
    rfl

/-- Each cell gets the aggregate of the cells up to it, wherever the chunks are. -/
theorem cumulate_exact (I : Input) (call : Call) (attr : Nat) : I.Exact call attr := by
  intro i
  rcases buildLocalEdges_spec I call attr i with ⟨localEdges, hbuild, hlocal⟩
  rcases allEdges_spec I call attr with ⟨allEdges, hgather, hall⟩
  refine ⟨((I.inputVectors i).flatMap Prod.snd).map (I.outputOf call attr), ?_, ?_, ?_⟩
  · rw [execute, hbuild]
    rw [hgather]
    exact cumulateVectors_spec hlocal hall fun v hv => hv
  · have hperm := perm_build (I.toKey 0) id ((I.onInstance i).chunks.entries.map Prod.fst)
    rw [map_id] at hperm
    rw [map_map]
    have hid : (Prod.fst ∘ I.outputOf call attr) = id := rfl
    rw [hid, map_id]
    exact hperm
  · intro out hout
    rcases mem_map.mp hout with ⟨pos, hpos, rfl⟩
    rcases mem_flatMap.mp hpos with ⟨v, hv, hpos⟩
    rcases ((isVector hlocal hall hv).mem_vector pos).mp hpos with ⟨⟨c, hc, rfl⟩, -, -⟩
    exact ⟨c.2, mem_entries.mp hc, congrArg _ (cellsOf_eq hc)⟩

end Run

end SciDB.Aggregates.Cumulate.Input
