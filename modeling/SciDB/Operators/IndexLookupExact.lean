import SciDB.Operators.IndexLookup

/-!
# When a lookup ends

The bisection rounds its middle towards zero.  Between a negative position and the next one
the middle is the upper of the two, and the search does not get ahead any more.

Main results:

- Theorem {lit}`neighbours`: neighbours in the sample are next to each other or in one chunk.
- Theorem {lit}`search_present`, {lit}`search_absent`: the search for a value, away from the trap.
- Theorem {lit}`index_lookup_exact_iff`: the index arrays for which every lookup is right.
- Theorem {lit}`lookup_never_ends`: a lookup that does not end.
-/

namespace SciDB.Operators.IndexLookup

open SciDB.Distribution OrderedMap List

variable {V : Type} [LinearOrder V] {v : V}

namespace Prepared

variable {P : Prepared V} {c d x y : Cell V} {A B vector : List (Cell V)}

/-! ## Cells -/

theorem getElem?_cells (k : Nat) : P.cells[k]? =
    P.items[k]?.map fun item => { position := P.base + k, value := item.1, original :=
      item.2 } := by
  rw [cells, getElem?_map, getElem?_zipIdx, Option.map_map, Nat.zero_add]
  rfl

theorem position_of_getElem? {k : Nat} (h : P.cells[k]? = some c) : c.position = P.base + k := by
  rw [getElem?_cells] at h
  rcases Option.map_eq_some_iff.mp h with ⟨item, -, rfl⟩
  rfl

theorem exists_index (hc : c ∈ P.cells) : ∃ k : Nat, P.cells[k]? = some c ∧
    c.position = P.base + k := by
  rcases getElem?_of_mem hc with ⟨k, hk⟩
  exact ⟨k, hk, position_of_getElem? hk⟩

theorem position_of_split (h : P.cells = A ++ c :: B) : c.position = P.base + A.length := by
  apply position_of_getElem?
  rw [h, getElem?_append_right le_rfl, Nat.sub_self]
  rfl

theorem values_increase : P.cells.Pairwise fun c d => c.value < d.value := by
  rw [cells, pairwise_map]
  have := P.increasing
  rw [← zipIdx_map_fst 0 P.items, pairwise_map] at this
  exact this

theorem positions_increase : P.cells.Pairwise fun c d => c.position < d.position := by
  rw [pairwise_iff_getElem]
  intro i j hi hj hij
  rw [position_of_getElem? (getElem?_eq_getElem hi), position_of_getElem? (getElem?_eq_getElem hj)]
  omega

theorem eq_of_position (hc : c ∈ P.cells) (hd : d ∈ P.cells) (h : c.position = d.position) :
    c = d := by
  rcases exists_index hc with ⟨i, hi, hci⟩
  rcases exists_index hd with ⟨j, hj, hdj⟩
  have hij : i = j := by omega
  rw [hij, hj] at hi
  exact (Option.some.inj hi).symm

theorem position_lt_iff (hc : c ∈ P.cells) (hd : d ∈ P.cells) :
    c.position < d.position ↔ c.value < d.value := by
  have hmono : ∀ c ∈ P.cells, ∀ d ∈ P.cells, c.position < d.position → c.value < d.value := by
    intro c hc d hd h
    rcases exists_index hc with ⟨i, hi, hci⟩
    rcases exists_index hd with ⟨j, hj, hdj⟩
    rcases List.getElem?_eq_some_iff.mp hi with ⟨hi', rfl⟩
    rcases List.getElem?_eq_some_iff.mp hj with ⟨hj', rfl⟩
    exact pairwise_iff_getElem.mp values_increase i j hi' hj' (by omega)
  refine ⟨hmono c hc d hd, fun h => ?_⟩
  by_contra hge
  rcases (not_lt.mp hge).lt_or_eq with hlt | heq
  · exact h.asymm (hmono d hd c hc hlt)
  · exact h.ne (congrArg Cell.value (eq_of_position hd hc heq).symm)

/-- There is a cell at each position between two cells. -/
theorem exists_between (hc : c ∈ P.cells) (hd : d ∈ P.cells) (pos : Int)
    (hle : c.position ≤ pos) (hle' : pos ≤ d.position) : ∃ e ∈ P.cells, e.position = pos := by
  rcases exists_index hc with ⟨i, -, hci⟩
  rcases exists_index hd with ⟨j, hj, hdj⟩
  have hlen := (List.getElem?_eq_some_iff.mp hj).1
  have hk : (pos - P.base).toNat < P.cells.length := by omega
  refine ⟨_, getElem_mem hk, ?_⟩
  rw [position_of_getElem? (getElem?_eq_getElem hk)]
  omega

theorem itemAt_eq_some {chunk pos : Int} :
    P.itemAt chunk pos = some c ↔ c ∈ P.cells ∧ c.position = pos ∧ P.chunkOf pos = chunk := by
  rw [itemAt]
  constructor
  · intro h
    have hfound := find?_some h
    rw [decide_eq_true_iff] at hfound
    exact ⟨mem_of_find?_eq_some h, hfound.1, hfound.1 ▸ hfound.2⟩
  · rintro ⟨hc, rfl, hchunk⟩
    cases hfind : P.cells.find? fun d =>
        decide (d.position = c.position ∧ P.chunkOf d.position = chunk) with
    | none =>
      have := find?_eq_none.mp hfind c hc
      simp [hchunk] at this
    | some d =>
      have hfound := find?_some hfind
      rw [decide_eq_true_iff] at hfound
      rw [eq_of_position (mem_of_find?_eq_some hfind) hc hfound.1]

/-- Whether a cell is the first of its chunk depends on the cell one position before it. -/
theorem newChunk_before (hsplit : P.cells = A ++ c :: B) (hd : d ∈ P.cells)
    (hpos : d.position + 1 = c.position) :
    P.newChunk (A.getLast?.or none) c = decide (P.chunkOf d.position ≠ P.chunkOf c.position) := by
  have hc := position_of_split hsplit
  have hA : A ≠ [] := by
    rintro rfl
    rcases exists_index hd with ⟨i, -, hdi⟩
    rw [length_nil] at hc
    omega
  have hlast : A.getLast hA = d := by
    refine eq_of_position ?_ hd ?_
    · rw [hsplit]
      exact mem_append_left _ (getLast_mem hA)
    · have hsplit' : P.cells = A.dropLast ++ A.getLast hA :: (c :: B) := by
        rw [hsplit]
        conv_lhs => rw [← dropLast_append_getLast hA]
        rw [append_assoc]
        rfl
      have := position_of_split hsplit'
      rw [length_dropLast] at this
      have hlen := length_pos_iff.mpr hA
      omega
  rw [getLast?_eq_some_getLast hA, hlast, newChunk]
  simp

theorem newChunk_after (hsplit : P.cells = A ++ c :: B) (hd : d ∈ P.cells)
    (hpos : c.position + 1 = d.position) : B.head? = some d := by
  have hc := position_of_split hsplit
  rcases exists_index hd with ⟨i, hi, hdi⟩
  have hindex : i = A.length + 1 := by omega
  rw [hindex, hsplit, getElem?_append_right (by omega)] at hi
  rw [head?_eq_getElem?, ← hi]
  simp

/-! ## Neighbours in the sample -/

section Sample

variable {limits : MemoryLimits} {draw : Int → Bool}

theorem sample_sublist : (P.buildLookupVector limits draw).Sublist P.cells :=
  buildLoop_sublist

theorem sample_increase (P : Prepared V) (limits : MemoryLimits) (draw : Int → Bool) :
    (P.buildLookupVector limits draw).Pairwise fun c d => c.position < d.position :=
  positions_increase.sublist sample_sublist

theorem sample_subset (hc : c ∈ P.buildLookupVector limits draw) : c ∈ P.cells :=
  sample_sublist.subset hc

/-- A cell that is not sampled is in one chunk with the cells next to it. -/
theorem inside_of_not_mem (hc : c ∈ P.cells) (hnot : c ∉ P.buildLookupVector limits draw) :
    (∀ d ∈ P.cells, d.position + 1 = c.position → P.chunkOf d.position = P.chunkOf c.position) ∧
      ∀ d ∈ P.cells, c.position + 1 = d.position → P.chunkOf d.position = P.chunkOf c.position := by
  rcases append_of_mem hc with ⟨A, B, hsplit⟩
  constructor
  · intro d hd hpos
    by_contra hne
    refine hnot (first_mem hsplit ?_)
    rw [newChunk_before hsplit hd hpos]
    simpa using hne
  · intro d hd hpos
    by_contra hne
    refine hnot (last_mem hsplit ?_)
    intro e he
    rw [newChunk_after hsplit hd hpos] at he
    cases he
    rw [newChunk]
    simpa using Ne.symm hne

variable {front rest : List (Cell V)} {v : V}

theorem of_split (hsplit : P.buildLookupVector limits draw = front ++ x :: y :: rest) :
    x ∈ P.cells ∧ y ∈ P.cells ∧ x.position < y.position := by
  have hsorted := P.sample_increase limits draw
  rw [hsplit, pairwise_append, pairwise_cons] at hsorted
  exact ⟨sample_subset (by rw [hsplit]; simp), sample_subset (by rw [hsplit]; simp),
    hsorted.2.1.1 y mem_cons_self⟩

theorem no_member_between (hsplit : P.buildLookupVector limits draw = front ++ x :: y :: rest)
    (hc : c ∈ P.buildLookupVector limits draw) :
    c.position ≤ x.position ∨ y.position ≤ c.position := by
  have hsorted := P.sample_increase limits draw
  rw [hsplit, pairwise_append, pairwise_cons, pairwise_cons] at hsorted
  rw [hsplit, mem_append, mem_cons, mem_cons] at hc
  rcases hc with hc | rfl | rfl | hc
  · exact .inl (hsorted.2.2 c hc x mem_cons_self).le
  · exact .inl le_rfl
  · exact .inr le_rfl
  · exact .inr (hsorted.2.1.2.1 c hc).le

/-- Neighbours in the sample are next to each other or in one chunk. -/
theorem neighbours (hsplit : P.buildLookupVector limits draw = front ++ x :: y :: rest) :
    y.position = x.position + 1 ∨
      ∀ pos, x.position ≤ pos → pos ≤ y.position → P.chunkOf pos = P.chunkOf x.position := by
  rcases of_split hsplit with ⟨hx, hy, hxy⟩
  by_cases hnext : y.position = x.position + 1
  · exact .inl hnext
  right
  -- along the positions from `x` on: a cell in between is not sampled
  have hwalk : ∀ n : Nat, x.position + n ≤ y.position →
      P.chunkOf (x.position + n) = P.chunkOf x.position := by
    intro n
    induction n with
    | zero =>
      intro _
      simp
    | succ n ih =>
      intro hle
      have ih := ih (by omega)
      rcases exists_between hx hy (x.position + n) (by omega) (by omega) with ⟨c, hc, hcpos⟩
      rcases exists_between hx hy (x.position + n + 1) (by omega) (by omega) with ⟨d, hd, hdpos⟩
      push_cast
      rw [← add_assoc, ← hdpos]
      by_cases hn : n = 0
      · have hnot : d ∉ P.buildLookupVector limits draw := by
          intro hmem
          have := no_member_between hsplit hmem
          omega
        exact ((inside_of_not_mem hd hnot).1 x hx (by omega)).symm
      · have hnot : c ∉ P.buildLookupVector limits draw := by
          intro hmem
          have := no_member_between hsplit hmem
          omega
        rw [(inside_of_not_mem hc hnot).2 d hd (by omega), hcpos, ih]
  intro pos hle hle'
  have := hwalk (pos - x.position).toNat (by omega)
  rwa [show x.position + ((pos - x.position).toNat : Int) = pos by omega] at this

/-- No cell is before or behind all that are sampled: the ends of the index are. -/
theorem ends_mem (hc : c ∈ P.cells) (limits : MemoryLimits) (draw : Int → Bool) :
    (∃ e ∈ P.buildLookupVector limits draw, e.position ≤ c.position) ∧
      ∃ e ∈ P.buildLookupVector limits draw, c.position ≤ e.position := by
  have hne : P.cells ≠ [] := ne_nil_of_mem hc
  rcases exists_index hc with ⟨k, hk, hpos⟩
  constructor
  · have hsplit : P.cells = [] ++ P.cells.head hne :: P.cells.tail := (cons_head_tail hne).symm
    have hfirst := position_of_split hsplit
    rw [length_nil] at hfirst
    exact ⟨_, first_mem hsplit (by simp [newChunk]), by omega⟩
  · have hsplit : P.cells = P.cells.dropLast ++ [P.cells.getLast hne] :=
      (dropLast_append_getLast hne).symm
    have hlast := position_of_split hsplit
    have hlen := (List.getElem?_eq_some_iff.mp hk).1
    rw [length_dropLast] at hlast
    exact ⟨_, last_mem hsplit (fun d hd => by cases hd), by omega⟩

/-! ## Looking into the sample -/

/-- The first member of the sample that is not less than a value decides. -/
theorem findElement_of_split (hsplit : vector = front ++ y :: rest)
    (hfront : ∀ c ∈ front, c.value < v) (hy : ¬y.value < v) :
    P.findElement vector v =
      if y.value = v then (true, y.original, y.original)
      else match front.getLast? with
        | none => (false, 0, -1)
        | some b =>
          if P.preSortedAndNotNullable then (false, b.original, y.original)
          else (false, b.position, y.position) := by
  have hindex : (vector.findIdx fun c => !decide (c.value < v)) = front.length := by
    have hnone : (front.findIdx fun c => !decide (c.value < v)) = front.length := by
      rw [findIdx_eq_length]
      intro c hc
      simpa using hfront c hc
    rw [hsplit, findIdx_append, hnone, findIdx_cons]
    simp [hy]
  rw [findElement, hindex, hsplit, getElem?_append_right le_rfl, Nat.sub_self]
  dsimp only [getElem?_cons_zero]
  cases hlast : front.getLast? with
  | none =>
    rw [getLast?_eq_none_iff.mp hlast]
    rfl
  | some b =>
    have hlen : front.length ≠ 0 := by
      intro hzero
      rw [length_eq_zero_iff.mp hzero] at hlast
      cases hlast
    rw [if_neg hlen, getElem?_append_left (by omega), ← getLast?_eq_getElem?, hlast]

theorem findElement_none (hall : ∀ c ∈ vector, c.value < v) :
    P.findElement vector v = (false, 0, -1) := by
  have hindex : (vector.findIdx fun c => !decide (c.value < v)) = vector.length := by
    rw [findIdx_eq_length]
    intro c hc
    simpa using hall c hc
  rw [findElement, hindex, getElem?_eq_none le_rfl]

theorem value_inj (hc : c ∈ P.cells) (hd : d ∈ P.cells) (h : c.value = d.value) : c = d := by
  refine eq_of_position hc hd ?_
  have h₁ := mt (position_lt_iff hd hc).mp (by rw [h]; exact lt_irrefl _)
  have h₂ := mt (position_lt_iff hc hd).mp (by rw [h]; exact lt_irrefl _)
  omega

theorem original_eq_position (hc : c ∈ P.cells) (h : P.preSortedAndNotNullable = true) :
    c.original = c.position := by
  rcases exists_index hc with ⟨k, hk, hpos⟩
  rw [getElem?_cells] at hk
  rcases Option.map_eq_some_iff.mp hk with ⟨item, hitem, rfl⟩
  exact P.original_eq h k item hitem

/-- The bounds of a search are neighbours in the sample. -/
theorem findElement_between (hsplit : P.buildLookupVector limits draw = front ++ x :: y :: rest)
    (hx : x.value < v) (hy : v < y.value) : P.findElement (P.buildLookupVector limits draw) v =
      (false, x.position, y.position) := by
  rcases of_split hsplit with ⟨hxmem, hymem, -⟩
  have hsorted : (P.buildLookupVector limits draw).Pairwise fun c d => c.value < d.value :=
    values_increase.sublist sample_sublist
  rw [hsplit, pairwise_append] at hsorted
  have hsplit' : P.buildLookupVector limits draw = (front ++ [x]) ++ y :: rest := by
    rw [hsplit, append_assoc]
    rfl
  have hfront : ∀ c ∈ front ++ [x], c.value < v :=
    forall_mem_append.mpr ⟨fun c hc => (hsorted.2.2 c hc x mem_cons_self).trans hx,
      forall_mem_singleton.mpr hx⟩
  rw [findElement_of_split hsplit' hfront (not_lt.mpr hy.le), if_neg hy.ne', getLast?_concat]
  dsimp only
  split
  next h => rw [original_eq_position hxmem h, original_eq_position hymem h]
  · rfl

/-- What looking into the sample can say about a value. -/
theorem findElement_cases (P : Prepared V) (limits : MemoryLimits) (draw : Int → Bool) (v : V) :
    (∃ c ∈ P.cells, c.value = v ∧ P.findElement (P.buildLookupVector limits draw) v =
      (true, c.original, c.original)) ∨
    ((∀ c ∈ P.cells, c.value ≠ v) ∧ P.findElement (P.buildLookupVector limits draw) v =
      (false, 0, -1)) ∨
    ∃ x y front rest, P.buildLookupVector limits draw = front ++ x :: y :: rest ∧
      x.value < v ∧ v < y.value := by
  cases hdrop : (P.buildLookupVector limits draw).dropWhile fun c => decide (c.value < v) with
  | nil =>
    -- all members are smaller, and the last cell is one of them
    have hall : ∀ c ∈ P.buildLookupVector limits draw, c.value < v := by
      intro c hc
      simpa using dropWhile_eq_nil_iff.mp hdrop c hc
    refine .inr (.inl ⟨?_, findElement_none hall⟩)
    intro c hc heq
    rcases (ends_mem hc limits draw).2 with ⟨e, he, hle⟩
    have hlt := (position_lt_iff (sample_subset he) hc).mpr (heq ▸ hall e he)
    omega
  | cons y rest =>
    have hsplit : P.buildLookupVector limits draw =
        (P.buildLookupVector limits draw).takeWhile (fun c => decide (c.value < v)) ++
        y :: rest := by
      rw [← hdrop, takeWhile_append_dropWhile]
    have hfront : ∀ c ∈ (P.buildLookupVector limits draw).takeWhile
        (fun c => decide (c.value < v)), c.value < v := by
      intro c hc
      simpa using mem_takeWhile_imp hc
    have hy : ¬y.value < v := by
      have := head?_dropWhile_not (fun c : Cell V => decide (c.value < v))
        (P.buildLookupVector limits draw)
      rw [hdrop] at this
      simpa using this
    have hymem : y ∈ P.buildLookupVector limits draw := by
      rw [hsplit]
      simp
    have hfind := P.findElement_of_split hsplit hfront hy
    by_cases heq : y.value = v
    · exact .inl ⟨y, sample_subset hymem, heq, hfind.trans (if_pos heq)⟩
    have hlt : v < y.value := lt_of_le_of_ne (not_lt.mp hy) (Ne.symm heq)
    right
    cases hlast : ((P.buildLookupVector limits draw).takeWhile
        fun c => decide (c.value < v)).getLast? with
    | none =>
      -- no member is smaller, and the first cell is one of them
      left
      rw [if_neg heq, hlast] at hfind
      refine ⟨?_, hfind⟩
      intro c hc hcv
      have hnil := getLast?_eq_none_iff.mp hlast
      rw [hnil] at hsplit
      have hcy := (position_lt_iff hc (sample_subset hymem)).mpr (hcv ▸ hlt)
      have hsorted := P.sample_increase limits draw
      rcases (ends_mem hc limits draw).1 with ⟨e, he, hle⟩
      rw [hsplit] at he hsorted
      rcases mem_cons.mp he with rfl | he
      · omega
      · have := (pairwise_cons.mp hsorted).1 e he
        omega
    | some x =>
      right
      rcases getLast?_eq_some_iff.mp hlast with ⟨front, hfrontx⟩
      refine ⟨x, y, front, rest, ?_, hfront x (by rw [hfrontx]; simp), hlt⟩
      rw [hfrontx, append_assoc] at hsplit
      exact hsplit

end Sample

/-! ## The search -/

section Search

variable {chunk start stop : Int} {v : V} {fuel : Nat}

/-- The middle is rounded towards zero. -/
theorem middle_spec (s : Int) :
    (0 ≤ s ∧ 2 * Int.tdiv s 2 ≤ s ∧ s < 2 * Int.tdiv s 2 + 2) ∨
      (s < 0 ∧ s ≤ 2 * Int.tdiv s 2 ∧ 2 * Int.tdiv s 2 < s + 2) := by
  rcases lt_or_ge s 0 with hneg | hpos
  · have hdiv : Int.tdiv s 2 = -((-s) / 2) := by
      rw [← Int.tdiv_eq_ediv_of_nonneg (by omega), Int.neg_tdiv, neg_neg]
    omega
  · rw [Int.tdiv_eq_ediv_of_nonneg hpos]
    omega

/-- The positions that a search can read. -/
def Readable (P : Prepared V) (chunk start stop : Int) : Prop :=
  ∀ pos, start ≤ pos → pos < stop → ∃ c ∈ P.cells, c.position = pos ∧ P.chunkOf pos = chunk

theorem Readable.itemAt (h : P.Readable chunk start stop) {pos : Int} (hle : start ≤ pos)
    (hlt : pos < stop) : ∃ c ∈ P.cells, c.position = pos ∧ P.itemAt chunk pos = some c := by
  rcases h pos hle hlt with ⟨c, hc, hpos, hchunk⟩
  exact ⟨c, hc, hpos, itemAt_eq_some.mpr ⟨hc, hpos, hchunk⟩⟩

theorem Readable.mono (h : P.Readable chunk start stop) {start' stop' : Int}
    (hstart : start ≤ start')
    (hstop : stop' ≤ stop) : P.Readable chunk start' stop' :=
  fun pos hle hlt => h pos (hstart.trans hle) (hlt.trans_le hstop)

/-- The search for a value that is there, if it does not come to the negative position of the
value from below. -/
theorem search_present (hc : c ∈ P.cells) (hread : P.Readable chunk start stop)
    (hstart : start ≤ c.position) (hstop : c.position < stop)
    (hbelow : start < c.position ∨ 0 ≤ c.position)
    (hfar : c.position ≤ -1 → c.position - 3 < start) (hfuel : stop - start ≤ fuel) :
    P.search chunk c.value fuel start stop = some (.ok (some c.original)) := by
  induction fuel generalizing start stop with
  | zero => omega
  | succ fuel ih =>
    have hmid := middle_spec (start + stop)
    have hlow : start ≤ Int.tdiv (start + stop) 2 := by omega
    have hhigh : Int.tdiv (start + stop) 2 < stop := by omega
    rcases hread.itemAt hlow hhigh with ⟨d, hd, hdpos, hitem⟩
    rw [search, if_pos (by omega)]
    dsimp only
    rw [hitem]
    dsimp only
    rw [← hdpos] at hmid hlow hhigh ⊢
    by_cases heq : d.value = c.value
    · rw [if_pos heq, value_inj hd hc heq]
      split
      next h => rw [original_eq_position hc h]
      · rfl
    rw [if_neg heq]
    by_cases hlt : c.value < d.value
    · rw [if_pos hlt]
      have := (position_lt_iff hc hd).mpr hlt
      refine ih (hread.mono le_rfl hhigh.le) hstart this hbelow hfar ?_
      omega
    · rw [if_neg hlt]
      have := (position_lt_iff hd hc).mpr (lt_of_le_of_ne (not_lt.mp hlt) heq)
      refine ih (hread.mono (by omega) le_rfl) (by omega) hstop ?_ ?_ ?_
      · omega
      · omega
      · omega

/-- The search for a value that is not there, if it belongs behind position 0. -/
theorem search_absent {place : Int} (hread : P.Readable chunk start stop) (hstart : start ≤ place)
    (hstop : place ≤ stop) (hplace : 1 ≤ place)
    (hbefore : ∀ d ∈ P.cells, d.position < place → d.value < v)
    (hafter : ∀ d ∈ P.cells, place ≤ d.position → v < d.value) (hfuel : stop - start < fuel) :
    P.search chunk v fuel start stop = some (.ok none) := by
  induction fuel generalizing start stop with
  | zero =>
    omega
  | succ fuel ih =>
    rw [search]
    by_cases hlt : start < stop
    · have hmid := middle_spec (start + stop)
      have hlow : start ≤ Int.tdiv (start + stop) 2 := by omega
      have hhigh : Int.tdiv (start + stop) 2 < stop := by omega
      rcases hread.itemAt hlow hhigh with ⟨d, hd, hdpos, hitem⟩
      rw [if_pos hlt]
      dsimp only
      rw [hitem]
      dsimp only
      rw [← hdpos] at hmid hlow hhigh ⊢
      by_cases hside : d.position < place
      · have hval := hbefore d hd hside
        rw [if_neg hval.ne, if_neg hval.asymm]
        exact ih (hread.mono (by omega) le_rfl) (by omega) hstop (by omega)
      · have hval := hafter d hd (not_lt.mp hside)
        rw [if_neg hval.ne', if_pos hval]
        exact ih (hread.mono le_rfl hhigh.le) hstart (not_lt.mp hside) (by omega)
    · rw [if_neg hlt]

/-- Between a negative position and the next one, the search cannot get ahead. -/
theorem search_stuck (hneg : start ≤ -1) (hy : y ∈ P.cells) (hpos : y.position = start + 1)
    (hv : v < y.value) (result : Option Int) :
    P.search chunk v fuel start (start + 1) ≠ some (.ok result) := by
  induction fuel with
  | zero => exact nofun
  | succ fuel ih =>
    have hmid : Int.tdiv (start + (start + 1)) 2 = start + 1 := by
      have := middle_spec (start + (start + 1))
      omega
    rw [search, if_pos (by omega)]
    dsimp only
    rw [hmid]
    cases hitem : P.itemAt chunk (start + 1) with
    | none => exact nofun
    | some d =>
      rcases itemAt_eq_some.mp hitem with ⟨hd, hdpos, -⟩
      have hdy : d = y := eq_of_position hd hy (hdpos.trans hpos.symm)
      dsimp only
      rw [hdy, if_neg hv.ne', if_pos hv]
      exact ih

end Search

/-! ## Lookups -/

/-- Up to position 0 there is no value between two values of the index, and no chunk has five
cells that begin with one at -4 or before. -/
def Safe (P : Prepared V) : Prop :=
  (∀ x ∈ P.cells, ∀ y ∈ P.cells, y.position = x.position + 1 → y.position ≤ 0 → x.value ⋖ y.value) ∧
  ∀ x ∈ P.cells, ∀ y ∈ P.cells, y.position = x.position + 4 → x.position ≤ -4 →
    P.chunkOf x.position ≠ P.chunkOf y.position

/-- A lookup that ends with the coordinate of the value, if there is one. -/
def Right (P : Prepared V) (limits : MemoryLimits) (draw : Int → Bool) (current : Option Int)
    (input : Option V) : Prop :=
  ∃ fuel result, (P.getItem fuel (P.buildLookupVector limits draw) current input).2 =
      some (.ok result) ∧
    ∀ k, result = some k ↔ ∃ c ∈ P.cells, input = some c.value ∧ c.original = k

/-- A lookup between two neighbours of the sample is a search. -/
theorem getItem_between {limits : MemoryLimits} {draw : Int → Bool} {front rest : List (Cell V)}
    (hsplit : P.buildLookupVector limits draw = front ++ x :: y :: rest) (hxv : x.value < v)
    (hvy : v < y.value) (fuel : Nat) (current : Option Int) :
    (P.getItem fuel (P.buildLookupVector limits draw) current (some v)).2 =
      P.search (P.chunkOf x.position) v fuel x.position y.position := by
  have hxy := (of_split hsplit).2.2
  rw [getItem, findPosition, findElement_between hsplit hxv hvy]
  dsimp only
  rw [if_neg (by omega), findPositionInArray]
  split
  next h => rw [h, Option.getD_some]
  · rfl

/-- The result for a value that a cell has. -/
theorem result_present (hc : c ∈ P.cells) (k : Int) :
    (some c.original : Option Int) = some k ↔
      ∃ d ∈ P.cells, (some c.value : Option V) = some d.value ∧ d.original = k := by
  rw [Option.some.injEq]
  constructor
  · intro h
    exact ⟨c, hc, rfl, h⟩
  · rintro ⟨d, hd, hval, hk⟩
    rw [value_inj hc hd (Option.some.inj hval)]
    exact hk

theorem result_absent (hv : ∀ c ∈ P.cells, c.value ≠ v) (k : Int) :
    (none : Option Int) = some k ↔ ∃ d ∈ P.cells, some v = some d.value ∧ d.original = k := by
  refine iff_of_false (by simp) ?_
  rintro ⟨d, hd, hval, -⟩
  exact hv d hd (Option.some.inj hval).symm

theorem right_of_safe (hsafe : P.Safe) (limits : MemoryLimits) (draw : Int → Bool)
    (current : Option Int) (input : Option V) : P.Right limits draw current input := by
  cases input with
  | none =>
    refine ⟨0, none, rfl, fun k => iff_of_false (by simp) ?_⟩
    rintro ⟨d, -, h, -⟩
    cases h
  | some v =>
    rcases P.findElement_cases limits draw v with
      ⟨c, hc, rfl, hfind⟩ | ⟨habsent, hfind⟩ | ⟨x, y, front, rest, hsplit, hxv, hvy⟩
    · refine ⟨0, some c.original, ?_, result_present hc⟩
      rw [getItem, findPosition, hfind]
    · refine ⟨0, none, ?_, result_absent habsent⟩
      rw [getItem, findPosition, hfind]
      rfl
    rcases of_split hsplit with ⟨hx, hy, hxy⟩
    have hnear := neighbours hsplit
    have hread : P.Readable (P.chunkOf x.position) x.position y.position := by
      intro pos hle hlt
      rcases exists_between hx hy pos hle hlt.le with ⟨c, hc, hpos⟩
      refine ⟨c, hc, hpos, ?_⟩
      rcases hnear with hnext | hchunk
      · rw [show pos = x.position by omega]
      · exact hchunk pos hle hlt.le
    by_cases hpresent : ∃ c ∈ P.cells, c.value = v
    · rcases hpresent with ⟨c, hc, rfl⟩
      have hxc := (position_lt_iff hx hc).mpr hxv
      have hcy := (position_lt_iff hc hy).mpr hvy
      refine ⟨(y.position - x.position).toNat, some c.original, ?_, result_present hc⟩
      rw [getItem_between hsplit hxv hvy]
      refine search_present hc hread hxc.le hcy (.inl hxc) ?_ (by omega)
      intro hneg
      by_contra hfar
      -- the bounds are then at least four positions apart, in one chunk
      rcases exists_between hx hy (x.position + 4) (by omega) (by omega) with ⟨d, hd, hdpos⟩
      refine hsafe.2 x hx d hd hdpos (by omega) ?_
      rcases hnear with hnext | hchunk
      · omega
      · rw [hdpos]
        exact (hchunk (x.position + 4) (by omega) (by omega)).symm
    · have habsent : ∀ c ∈ P.cells, c.value ≠ v := fun c hc h => hpresent ⟨c, hc, h⟩
      -- the place where the value would be
      have hplace : ∃ place, x.position < place ∧ place ≤ y.position ∧
          (∀ d ∈ P.cells, d.position < place → d.value < v) ∧
          ∀ d ∈ P.cells, place ≤ d.position → v < d.value := by
        have hfinite : {d | d ∈ P.cells ∧ v < d.value}.Finite :=
          (finite_toSet P.cells).subset fun _ h => h.1
        rcases Set.exists_min_image _ Cell.position hfinite ⟨y, hy, hvy⟩ with
          ⟨d, ⟨hd, hvd⟩, hmin⟩
        refine ⟨d.position, (position_lt_iff hx hd).mpr (hxv.trans hvd), hmin y ⟨hy, hvy⟩, ?_, ?_⟩
        · intro e he hlt
          refine lt_of_le_of_ne (not_lt.mp fun h => ?_) (habsent e he)
          have := hmin e ⟨he, h⟩
          omega
        · intro e he hle
          rcases hle.lt_or_eq with hlt | heq
          · exact hvd.trans ((position_lt_iff hd he).mp hlt)
          · rwa [← eq_of_position hd he heq]
      rcases hplace with ⟨place, hxp, hpy, hbefore, hafter⟩
      refine ⟨(y.position - x.position).toNat + 1, none, ?_, result_absent habsent⟩
      rw [getItem_between hsplit hxv hvy]
      refine search_absent hread hxp.le hpy ?_ hbefore hafter (by push_cast; omega)
      by_contra hlow
      rcases exists_between hx hy place hxp.le hpy with ⟨e, he, hepos⟩
      rcases exists_between hx hy (place - 1) (by omega) (by omega) with ⟨d, hd, hdpos⟩
      have hcov := hsafe.1 d hd e he (by omega) (by omega)
      exact hcov.2 (hbefore d hd (by omega)) (hafter e he (by omega))

/-! ## The trap -/

/-- Two members with none between them are neighbours. -/
theorem exists_split (hsub : vector.Sublist P.cells) (hx : x ∈ vector)
    (hy : y ∈ vector) (hxy : x.position < y.position)
    (hnone : ∀ c ∈ vector, c.position ≤ x.position ∨ y.position ≤ c.position) :
    ∃ front rest, vector = front ++ x :: y :: rest := by
  have hsorted : vector.Pairwise fun c d => c.position < d.position :=
    positions_increase.sublist hsub
  rcases append_of_mem hx with ⟨front, rest, rfl⟩
  rw [pairwise_append, pairwise_cons] at hsorted
  have hyrest : y ∈ rest := by
    rcases mem_append.mp hy with hy | hy
    · have := hsorted.2.2 y hy x mem_cons_self
      omega
    · rcases mem_cons.mp hy with rfl | hy
      · omega
      · exact hy
  cases rest with
  | nil => cases hyrest
  | cons d rest =>
    have hlater := hsorted.2.1.1 d mem_cons_self
    have hdy : y.position ≤ d.position := by
      have := hnone d (by simp)
      omega
    rcases mem_cons.mp hyrest with rfl | hyrest
    · exact ⟨front, rest, rfl⟩
    · have := (pairwise_cons.mp hsorted.2.1.2).1 y hyrest
      omega

theorem floor_limit (P : Prepared V) (n : Int) : ⌊P.memberSize.1 * n / P.memberSize.1⌋ = n := by
  rw [mul_div_cancel_left₀ _ P.memberSize.2.ne', Int.floor_intCast]

/-- With enough memory every value is in the vector. -/
theorem exists_limit_all (P : Prepared V) : ∃ memLimit,
    (P.computeVectorLimits memLimit).insertionProbability ≥ 1 := by
  refine ⟨P.memberSize.1 * (P.cells.length + 1 + 2 * P.chunkCount : Int), ?_⟩
  rw [computeVectorLimits, floor_limit, if_neg (by omega), if_pos (by omega)]

/-- A limit for all values but one. -/
theorem exists_limit_but_one (P : Prepared V) (hlen : 2 ≤ P.cells.length) : ∃ memLimit,
    (P.computeVectorLimits memLimit).insertionProbability < 1 ∧
      (P.computeVectorLimits memLimit).numOptionalValues = P.cells.length - 1 := by
  refine ⟨P.memberSize.1 * (P.cells.length - 1 + 2 * P.chunkCount : Int), ?_⟩
  rw [computeVectorLimits, floor_limit, if_neg (by omega), if_neg (by omega)]
  constructor
  · have hpos : (0 : ℚ) < P.cells.length := by
      have : 0 < P.cells.length := by omega
      exact_mod_cast this
    rw [div_lt_one hpos]
    push_cast
    linarith
  · dsimp only
    omega

theorem covBy_of_right (h : ∀ memLimit draw current input,
    P.Right (P.computeVectorLimits memLimit) draw current input) (hx : x ∈ P.cells)
    (hy : y ∈ P.cells) (hpos : y.position = x.position + 1) (hneg : y.position ≤ 0) :
    x.value ⋖ y.value := by
  refine ⟨(position_lt_iff hx hy).mp (by omega), ?_⟩
  intro v hxv hvy
  rcases P.exists_limit_all with ⟨memLimit, hlimit⟩
  have hall : P.buildLookupVector (P.computeVectorLimits memLimit) (fun _ => false) = P.cells :=
    buildLoop_all hlimit
  rcases exists_split (List.Sublist.refl P.cells) hx hy (by omega) (fun c _ => by omega) with
    ⟨front, rest, hsplit⟩
  rcases h memLimit (fun _ => false) none (some v) with ⟨fuel, result, hrun, -⟩
  rw [getItem_between (hall.trans hsplit) hxv hvy, hpos] at hrun
  exact search_stuck (by omega) hy hpos hvy result hrun

theorem chunkOf_ne_of_right (h : ∀ memLimit draw current input,
    P.Right (P.computeVectorLimits memLimit) draw current input) (hx : x ∈ P.cells)
    (hy : y ∈ P.cells) (hpos : y.position = x.position + 4) (hneg : x.position ≤ -4) :
    P.chunkOf x.position ≠ P.chunkOf y.position := by
  intro hchunk
  -- the chunk of the cells in between
  have hsame : ∀ pos, x.position ≤ pos → pos ≤ y.position → P.chunkOf pos =
    P.chunkOf x.position := by
    intro pos hle hle'
    have h₁ : P.chunkOf x.position ≤ P.chunkOf pos := getChunkPosition_mono hle
    have h₂ : P.chunkOf pos ≤ P.chunkOf y.position := getChunkPosition_mono hle'
    omega
  have hlen : 5 ≤ P.cells.length := by
    rcases exists_index hx with ⟨i, -, hxi⟩
    rcases exists_index hy with ⟨j, hj, hyj⟩
    have := (List.getElem?_eq_some_iff.mp hj).1
    omega
  rcases P.exists_limit_but_one (by omega) with ⟨memLimit, hlimit, hroom⟩
  let draw : Int → Bool := fun pos => decide (pos = x.position ∨ pos = y.position)
  have hnodup : P.cells.Nodup := positions_increase.imp fun hlt heq => hlt.ne (congrArg _ heq)
  have hdrawn : (P.cells.filter fun c => draw c.position).length ≤ P.cells.length - 1 := by
    have hsub : (P.cells.filter fun c => draw c.position) ⊆ [x, y] := by
      intro c hc
      rcases mem_filter.mp hc with ⟨hc, hdraw⟩
      rcases of_decide_eq_true hdraw with heq | heq
      · rw [eq_of_position hc hx heq]
        exact mem_cons_self
      · rw [eq_of_position hc hy heq]
        exact mem_cons_of_mem x mem_cons_self
    have := ((hnodup.filter _).subperm hsub).length_le
    rw [length_cons, length_singleton] at this
    omega
  have hmem : ∀ c ∈ P.cells, draw c.position = true →
      c ∈ P.buildLookupVector (P.computeVectorLimits memLimit) draw := by
    intro c hc hdraw
    rcases append_of_mem hc with ⟨A, B, hsplit⟩
    exact drawn_mem hsplit hdraw (by omega)
  have hxmem := hmem x hx (by simp [draw])
  have hymem := hmem y hy (by simp [draw])
  have hnone : ∀ c ∈ P.buildLookupVector (P.computeVectorLimits memLimit) draw,
      c.position ≤ x.position ∨ y.position ≤ c.position := by
    intro c hcmem
    by_contra hbetween
    have hc := sample_subset hcmem
    rcases append_of_mem hc with ⟨A, B, hsplit⟩
    rcases exists_between hx hy (c.position - 1) (by omega) (by omega) with ⟨d, hd, hdpos⟩
    rcases exists_between hx hy (c.position + 1) (by omega) (by omega) with ⟨e, he, hepos⟩
    have hcchunk := hsame c.position (by omega) (by omega)
    refine not_mem_of_not_drawn hlimit hsplit (by simpa using hnodup) ?_ ⟨e, ?_, ?_⟩ ?_ hcmem
    · rw [newChunk_before hsplit hd (by omega), hcchunk, hsame d.position (by omega) (by omega)]
      simp
    · exact newChunk_after hsplit he hepos.symm
    · rw [newChunk]
      simp [hcchunk, hsame e.position (by omega) (by omega)]
    · simp only [draw, decide_eq_true_eq]
      omega
  rcases exists_split sample_sublist hxmem hymem (by omega) hnone with ⟨front, rest, hsplit⟩
  rcases exists_between hx hy (x.position + 3) (by omega) (by omega) with ⟨c, hc, hcpos⟩
  rcases exists_between hx hy (x.position + 2) (by omega) (by omega) with ⟨d, hd, hdpos⟩
  have hxc := (position_lt_iff hx hc).mp (by omega)
  have hdc := (position_lt_iff hd hc).mp (by omega)
  have hcy := (position_lt_iff hc hy).mp (by omega)
  rcases h memLimit draw none (some c.value) with ⟨fuel, result, hrun, -⟩
  rw [getItem_between hsplit hxc hcy] at hrun
  cases fuel with
  | zero => cases hrun
  | succ fuel =>
    have hmid : Int.tdiv (x.position + y.position) 2 = x.position + 2 := by
      have := middle_spec (x.position + y.position)
      omega
    have hitem : P.itemAt (P.chunkOf x.position) (x.position + 2) = some d :=
      itemAt_eq_some.mpr ⟨hd, hdpos, hsame _ (by omega) (by omega)⟩
    rw [search, if_pos (by omega)] at hrun
    dsimp only at hrun
    rw [hmid, hitem] at hrun
    dsimp only at hrun
    rw [if_neg hdc.ne, if_neg hdc.asymm, hpos, show x.position + 2 + 1 = x.position + 3 by ring,
      show x.position + 4 = x.position + 3 + 1 by ring] at hrun
    exact search_stuck (by omega) hy (by omega) hcy result hrun

theorem right_iff_safe (P : Prepared V) : (∀ memLimit draw current input,
    P.Right (P.computeVectorLimits memLimit) draw current input) ↔ P.Safe :=
  ⟨fun h => ⟨fun _ hx _ hy => covBy_of_right h hx hy, fun _ hx _ hy => chunkOf_ne_of_right h hx hy⟩,
    fun h _ => right_of_safe h _⟩

end Prepared

/-! ## Index arrays -/

namespace Index

variable {I : Index V} {memberSize : {size : ℚ // 0 < size}}

theorem getElem?_sorted (S : SortedIndex V) (n : Nat) :
    ((Index.sorted S).prepareIndexArray memberSize).cells[n]? =
      S.values[n]?.map fun v => { position := S.first + n, value := v, original :=
        S.first + n } := by
  rw [Prepared.getElem?_cells]
  simp only [prepareIndexArray, getElem?_map, getElem?_zipIdx, Option.map_map]
  rw [Nat.zero_add]
  rfl

/-- The cells of the sorted index are the values of the index. -/
theorem holds_iff (memberSize : {size : ℚ // 0 < size}) (v : V) (k : Int) : I.Holds v k ↔
    ∃ c ∈ (I.prepareIndexArray memberSize).cells, v = c.value ∧ c.original = k := by
  cases I with
  | sorted S =>
    constructor
    · rintro ⟨n, hn, rfl⟩
      have hcell : ((Index.sorted S).prepareIndexArray memberSize).cells[n]? = _ :=
        getElem?_sorted S n
      rw [hn] at hcell
      exact ⟨_, mem_of_getElem? hcell, rfl, rfl⟩
    · rintro ⟨c, hc, rfl, rfl⟩
      rcases getElem?_of_mem hc with ⟨n, hn⟩
      rw [getElem?_sorted] at hn
      rcases Option.map_eq_some_iff.mp hn with ⟨v, hv, rfl⟩
      exact ⟨n, hv, rfl⟩
  | any A =>
    have hcells : ∀ v k, (∃ c ∈ ((Index.any A).prepareIndexArray memberSize).cells, v = c.value ∧
        c.original = k) ↔ (v, k) ∈ A.sortedPairs := by
      intro v k
      constructor
      · rintro ⟨c, hc, rfl, rfl⟩
        rcases mem_map.mp hc with ⟨x, hx, rfl⟩
        exact fst_mem_of_mem_zipIdx hx
      · intro h
        rcases getElem?_of_mem h with ⟨n, hn⟩
        refine ⟨_, mem_map.mpr ⟨((v, k), n), ?_, rfl⟩, rfl, rfl⟩
        exact mk_mem_zipIdx_iff_getElem?.mpr hn
    rw [hcells, A.perm_sortedPairs.mem_iff, A.mem_pairs]
    rfl

theorem exact_iff_right : I.Exact memberSize ↔ ∀ memLimit draw current input,
    (I.prepareIndexArray memberSize).Right
      ((I.prepareIndexArray memberSize).computeVectorLimits memLimit) draw current input := by
  have hresult : ∀ (input : Option V) (k : Int), (∃ v, input = some v ∧ I.Holds v k) ↔
      ∃ c ∈ (I.prepareIndexArray memberSize).cells, input = some c.value ∧ c.original = k := by
    intro input k
    constructor
    · rintro ⟨v, rfl, hv⟩
      rcases (holds_iff memberSize v k).mp hv with ⟨c, hc, rfl, hk⟩
      exact ⟨c, hc, rfl, hk⟩
    · rintro ⟨c, hc, rfl, hk⟩
      exact ⟨c.value, rfl, (holds_iff memberSize _ k).mpr ⟨c, hc, rfl, hk⟩⟩
  rw [Exact]
  simp [hresult, Prepared.Right]

/-- The index arrays that do not lead into the trap: those that are sorted first, and those
that are safe up to position 0. -/
def Safe : Index V → Prop
  | .sorted S =>
    (∀ (n : Nat) (v v' : V), S.values[n]? = some v → S.values[n + 1]? = some v' →
      S.first + n + 1 ≤ 0 → v ⋖ v') ∧
    ∀ n : Nat, n + 4 < S.values.length → S.first + n ≤ -4 →
      getChunkPosition S.dim (S.first + n) ≠ getChunkPosition S.dim (S.first + n + 4)
  | .any _ => True

theorem safe_sorted (S : SortedIndex V) :
    ((Index.sorted S).prepareIndexArray memberSize).Safe ↔ (Index.sorted S).Safe := by
  have hcell : ∀ c ∈ ((Index.sorted S).prepareIndexArray memberSize).cells,
      ∃ n : Nat, S.values[n]? = some c.value ∧ c.position = S.first + n := by
    intro c hc
    rcases Prepared.exists_index hc with ⟨n, hn, hpos⟩
    rw [getElem?_sorted] at hn
    rcases Option.map_eq_some_iff.mp hn with ⟨v, hv, rfl⟩
    exact ⟨n, hv, hpos⟩
  have hmem : ∀ (n : Nat) (v : V), S.values[n]? = some v →
      { position := S.first + n, value := v, original := S.first + n } ∈
        ((Index.sorted S).prepareIndexArray memberSize).cells := by
    intro n v hv
    refine mem_of_getElem? (i := n) ?_
    rw [getElem?_sorted, hv]
    rfl
  constructor
  · rintro ⟨hcov, hchunk⟩
    constructor
    · intro n v v' hv hv' hneg
      refine hcov _ (hmem n v hv) _ (hmem (n + 1) v' hv') ?_ ?_
      · push_cast
        ring
      · push_cast
        omega
    · intro n hlen hneg
      have := hchunk _ (hmem n _ (getElem?_eq_getElem (by omega))) _
        (hmem (n + 4) _ (getElem?_eq_getElem hlen)) (by push_cast; ring) hneg
      push_cast at this
      rwa [← add_assoc] at this
  · rintro ⟨hcov, hchunk⟩
    constructor
    · intro x hx y hy hpos hneg
      rcases hcell x hx with ⟨n, hn, hxpos⟩
      rcases hcell y hy with ⟨m, hm, hypos⟩
      have hnm : m = n + 1 := by omega
      rw [hnm] at hm
      exact hcov n x.value y.value hn hm (by omega)
    · intro x hx y hy hpos hneg
      rcases hcell x hx with ⟨n, hn, hxpos⟩
      rcases hcell y hy with ⟨m, hm, hypos⟩
      have hlen := (List.getElem?_eq_some_iff.mp hm).1
      rw [hpos, hxpos]
      exact hchunk n (by omega) (by omega)

theorem safe_any (A : AnyIndex V) : ((Index.any A).prepareIndexArray memberSize).Safe := by
  have hpos : ∀ c ∈ ((Index.any A).prepareIndexArray memberSize).cells, 0 ≤ c.position := by
    intro c hc
    rcases Prepared.exists_index hc with ⟨n, -, hpos⟩
    rw [hpos]
    change 0 ≤ 0 + (n : Int)
    omega
  constructor
  · intro x hx y hy hnext hneg
    have := hpos x hx
    omega
  · intro x hx y hy _ hneg
    have := hpos x hx
    omega

/-- The lookups in an index are right exactly if it does not lead into the trap. -/
theorem index_lookup_exact_iff (I : Index V) (memberSize : {size : ℚ // 0 < size}) :
    I.Exact memberSize ↔ I.Safe := by
  rw [exact_iff_right, Prepared.right_iff_safe]
  cases I with
  | sorted S => exact safe_sorted S
  | any A => exact iff_of_true (safe_any A) trivial

/-! ## A lookup that does not end -/

/-- An index with the values 10, 20, 30 at the coordinates from -3 on. -/
def tensFromMinusThree : SortedIndex Nat where
  dim := .ofBounds (-3) 6 10 (by decide)
  first := -3
  values := [10, 20, 30]
  increasing := by decide
  startMin_le := by decide
  le_endMax := by decide

/-- The index, with members of 24 bytes. -/
def preparedTens : Prepared Nat :=
  (Index.sorted tensFromMinusThree).prepareIndexArray ⟨24, by norm_num⟩

/-- The search for 15 goes on between the positions -3 and -2 for ever. -/
theorem lookup_never_ends :
    (∀ fuel, (preparedTens.getItem fuel preparedTens.cells none (some 15)).2 = none) ∧
      ¬(Index.sorted tensFromMinusThree).Exact ⟨24, by norm_num⟩ := by
  have hsearch : ∀ fuel, preparedTens.search (-3) 15 fuel (-3) (-2) = none := by
    intro fuel
    induction fuel with
    | zero => rfl
    | succ fuel ih => exact ih
  refine ⟨?_, ?_⟩
  · intro fuel
    exact hsearch fuel
  · intro hexact
    have hsafe := safe_sorted tensFromMinusThree |>.mp
      (preparedTens.right_iff_safe.mp (exact_iff_right.mp hexact))
    have hcov := hsafe.1 0 10 20 rfl rfl (by decide)
    exact hcov.2 (c := 15) (by decide) (by decide)

end Index

end SciDB.Operators.IndexLookup
