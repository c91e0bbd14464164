import SciDB.Operators.Uniq

/-!
# When uniq is exact

The first pass of the operator passes over missing values, but the second one treats them as
values that differ from their neighbours, and then refuses to write them.  So the two
passes agree only if a chunk from which something is written has its missing values in
front, and with reason 0 unless the first value of the chunk is left out.

Main results:

- Theorems {lit}`writeCells_of_quiet` and {lit}`quiet_of_writeCells`: when the values of a chunk
  can be written.
- Theorem {lit}`uniq_exact_iff`: the arrays for which the operator is exact.
- Theorem {lit}`uniq_fails_on_null`: an array for which it is not.
-/

namespace SciDB.Operators.Uniq

open SciDB.Distribution OrderedMap Collapse List

variable {α : Type} {dim : DimensionDesc} {w w' : Writer α} {position : Int}

/-! ## The writer -/

namespace Writer

/-- What the writer keeps up: the chunk that is open is the one of the last cell. -/
structure Inv (dim : DimensionDesc) (w : Writer α) : Prop where
  le : -1 ≤ w.outputCellPosition
  start : w.outputCellPosition = -1 → w.chunks = [] ∧ w.outputChunkPosition = -1
  current : w.outputCellPosition ≠ -1 →
    w.outputChunkPosition = getChunkPosition dim w.outputCellPosition ∧
      ∃ front cells, w.chunks = front ++ [(w.outputChunkPosition, cells)]
  bounded : ∀ c ∈ w.chunks, c.1 ≤ w.outputChunkPosition
  placed : ∀ c ∈ w.chunks, ∀ e ∈ c.2, getChunkPosition dim e.1 = c.1

theorem inv_new : Inv dim ({} : Writer α) where
  le := le_refl _
  start := fun _ => ⟨rfl, rfl⟩
  current := fun h => absurd rfl h
  bounded := by simp
  placed := by simp

theorem addCell_concat (cell : Int × Value α) (front : List (Int × List (Int × Value α)))
    (c : Int × List (Int × Value α)) :
    addCell cell (front ++ [c]) = front ++ [(c.1, c.2 ++ [cell])] := by
  induction front with
  | nil => rfl
  | cons c' front ih =>
    cases front with
    | nil => rfl
    | cons c'' front => exact congrArg (c' :: ·) ih

/-- The last cell is in the last chunk, and the chunks before are not behind it. -/
theorem Inv.last (hpos : -1 < position)
    {front : List (Int × List (Int × Value α))} {cells : List (Int × Value α)}
    (hbounded : ∀ c ∈ front, c.1 ≤ getChunkPosition dim position)
    (hplaced : ∀ c ∈ front, ∀ e ∈ c.2, getChunkPosition dim e.1 = c.1)
    (hcells : ∀ e ∈ cells, getChunkPosition dim e.1 = getChunkPosition dim position) :
    Inv dim ⟨getChunkPosition dim position, position,
      front ++ [(getChunkPosition dim position, cells)]⟩ where
  le := hpos.le
  start := fun h => absurd h hpos.ne'
  current := fun _ => ⟨rfl, front, cells, rfl⟩
  bounded := forall_mem_append.mpr ⟨hbounded, by simp⟩
  placed := forall_mem_append.mpr ⟨hplaced, by simpa using hcells⟩

/-- A value behind all others can be written. -/
theorem writeValue_spec (h : Inv dim w) (hstart : dim.startMin = 0)
    (hnext : w.outputCellPosition < position) (hend : position ≤ dim.endMax) (x : α) :
    ∃ w', w.writeValue dim position (.data x) = .ok w' ∧ Inv dim w' ∧
      w'.outputCellPosition = position ∧ w'.cells = w.cells ++ [(position, .data x)] := by
  have hle := h.le
  have hchunk : 0 ≤ getChunkPosition dim position := by
    rw [← hstart, startMin_le_getChunkPosition]
    omega
  have hlater : w.outputChunkPosition ≤ getChunkPosition dim position := by
    by_cases hnew : w.outputCellPosition = -1
    · rw [(h.start hnew).2]
      omega
    · rw [(h.current hnew).1]
      exact getChunkPosition_mono hnext.le
  rw [writeValue, if_neg (by simpa [Value.isNull] using hnext), if_neg (by omega)]
  by_cases hsame : getChunkPosition dim position = w.outputChunkPosition
  · rw [if_neg (not_not.mpr hsame)]
    have hold : w.outputCellPosition ≠ -1 := by
      intro hnew
      rw [(h.start hnew).2] at hsame
      omega
    rcases (h.current hold).2 with ⟨front, cells, hchunks⟩
    have hbounded := h.bounded
    have hplaced := h.placed
    rw [hchunks, forall_mem_append, ← hsame] at hbounded
    rw [hchunks, forall_mem_append, ← hsame, forall_mem_singleton] at hplaced
    rw [hchunks, addCell_concat, ← hsame]
    refine ⟨_, rfl, .last (by omega) hbounded.1 hplaced.1 ?_, rfl, ?_⟩
    · exact forall_mem_append.mpr ⟨hplaced.2, by simp⟩
    · simp [Writer.cells, hchunks]
  · rw [if_pos hsame]
    have hfresh : getChunkPosition dim position ∉ w.chunks.map Prod.fst := by
      intro hmem
      rcases mem_map.mp hmem with ⟨c, hc, heq⟩
      have := h.bounded c hc
      omega
    rw [if_neg hfresh]
    refine ⟨_, rfl, .last (by omega) ?_ h.placed (by simp), rfl, by simp [Writer.cells]⟩
    intro c hc
    exact (h.bounded c hc).trans hlater

theorem writeValue_null (position : Int) (reason : Nat) :
    w.writeValue dim position (.null reason) = .error .inconsistency := by
  rw [writeValue, if_pos (by simp [Value.isNull])]

end Writer

/-! ## The values of a chunk -/

/-- Values at consecutive positions. -/
def placed (position : Int) : List α → List (Int × Value α)
  | [] => []
  | x :: xs => (position, .data x) :: placed (position + 1) xs

theorem placed_append (position : Int) (xs ys : List α) :
    placed position (xs ++ ys) = placed position xs ++ placed (position + xs.length) ys := by
  induction xs generalizing position with
  | nil => simp [placed]
  | cons x xs ih =>
    rw [cons_append, placed, ih, placed, cons_append, length_cons]
    congr 3
    push_cast
    ring

theorem placed_eq_zipIdx (xs : List α) (k : Nat) :
    placed (k : Int) xs = (xs.zipIdx k).map fun x => ((x.2 : Int), Value.data x.1) := by
  induction xs generalizing k with
  | nil => rfl
  | cons x xs ih =>
    rw [zipIdx_cons, map_cons, ← ih]
    rfl

variable [DecidableEq α]

/-- The state of the writer after the values of a chunk. -/
def Wrote (dim : DimensionDesc) (w w' : Writer α) (position : Int) (xs : List α) : Prop :=
  w'.Inv dim ∧ w'.outputCellPosition < position + xs.length ∧ w'.cells =
    w.cells ++ placed position xs

/-- The room that the values at consecutive positions need. -/
def Fits (dim : DimensionDesc) (w : Writer α) (position : Int) (xs : List α) : Prop :=
  dim.startMin = 0 ∧ w.outputCellPosition < position ∧ position + xs.length ≤ dim.endMax + 1

variable {position : Int} {cells : List (Value α)} {x : α} {writeFirstValue : Bool} {reason : Nat}

omit [DecidableEq α] in
theorem wrote_nil (h : w.Inv dim) (hfits : Fits dim w position ([] : List α)) :
    Wrote dim w w position ([] : List α) := by
  refine ⟨h, ?_, (append_nil _).symm⟩
  have := hfits.2.1
  omega

omit [DecidableEq α] in
/-- The first of some values is written. -/
theorem Fits.write (h : w.Inv dim) {xs : List α} (hfits : Fits dim w position (x :: xs)) :
    ∃ w₁, w.writeValue dim position (.data x) = .ok w₁ ∧ w₁.Inv dim ∧
      Fits dim w₁ (position + 1) xs ∧
      ∀ w', Wrote dim w₁ w' (position + 1) xs → Wrote dim w w' position (x :: xs) := by
  rcases hfits with ⟨hstart, hnext, hend⟩
  rw [length_cons] at hend
  rcases w.writeValue_spec h hstart hnext (by omega) x with ⟨w₁, hwrite, hinv, hcell, hcells⟩
  refine ⟨w₁, hwrite, hinv, ⟨hstart, by omega, by omega⟩, ?_⟩
  rintro w' ⟨hinv', hcell', hcells'⟩
  refine ⟨hinv', ?_, ?_⟩
  · rw [length_cons]
    omega
  · rw [hcells', hcells, append_assoc]
    rfl

/-- After a value, the others are written unless one of them is missing. -/
theorem writeCells_data (writeFirstValue : Bool) (hcells : ∀ v ∈ cells, v.isNull = false)
    (h : w.Inv dim) (a : α) (hfits : Fits dim w position (fresh (some a) (data cells))) :
    ∃ w', writeCells dim writeFirstValue cells (.data a) position w = .ok w' ∧
      Wrote dim w w' position (fresh (some a) (data cells)) := by
  induction cells generalizing a position w with
  | nil => exact ⟨w, rfl, wrote_nil h hfits⟩
  | cons v cells ih =>
    have hrest := fun v hv => hcells v (mem_cons_of_mem _ hv)
    cases v with
    | null reason => cases hcells (.null reason) mem_cons_self
    | data x =>
      have hdata : data (Value.data x :: cells) = x :: data cells := rfl
      rw [hdata, fresh] at hfits
      rw [hdata, fresh, writeCells]
      by_cases hx : a = x
      · subst hx
        rw [if_pos rfl] at hfits
        rw [if_neg (not_not.mpr rfl), if_pos rfl]
        exact ih hrest h a hfits
      · have hne : (some a : Option α) ≠ some x := fun heq => hx (Option.some.inj heq)
        rw [if_neg hne] at hfits
        have hval : (Value.data a : Value α) ≠ .data x := fun heq => hx (Value.data.inj heq)
        rw [if_pos hval, if_pos (by simp [Value.isNull]), if_neg hne]
        rcases hfits.write h with ⟨w₁, hwrite, hinv, hfits₁, hwrote⟩
        rcases ih hrest hinv x hfits₁ with ⟨w', hrun, hw'⟩
        refine ⟨w', ?_, hwrote w' hw'⟩
        rw [hwrite]
        exact hrun

/-- A missing value after another value cannot be written. -/
theorem nonNull_of_writeCells {a : α}
    (h : writeCells dim writeFirstValue cells (.data a) position w = .ok w') :
    ∀ v ∈ cells, v.isNull = false := by
  induction cells generalizing a position w with
  | nil => simp
  | cons v cells ih =>
    rw [writeCells] at h
    cases v with
    | null reason =>
      rw [if_pos (by simp), if_pos (by simp [Value.isNull]), Writer.writeValue_null] at h
      cases h
    | data x =>
      refine forall_mem_cons.mpr ⟨rfl, ?_⟩
      split at h
      · rw [if_pos (by simp [Value.isNull])] at h
        rcases bind_eq_ok.mp h with ⟨w₁, -, hrun⟩
        exact ih hrun
      · exact ih h

/-- Missing values are in front. -/
def NullsFirst (cells : List (Value α)) : Prop :=
  ∀ v ∈ cells.dropWhile Value.isNull, v.isNull = false

/-- The missing values in front have reason 0. -/
def PlainNulls (cells : List (Value α)) : Prop :=
  ∀ v ∈ cells.takeWhile Value.isNull, v = .null 0

omit [DecidableEq α] in
theorem nullsFirst_null : NullsFirst (.null reason :: cells) ↔ NullsFirst cells := by
  rfl

omit [DecidableEq α] in
theorem nullsFirst_data : NullsFirst (.data x :: cells) ↔ ∀ v ∈ cells, v.isNull = false := by
  rw [NullsFirst, dropWhile_cons_of_neg (by simp [Value.isNull]), forall_mem_cons]
  exact and_iff_right rfl

/-- All values of the chunk are written. -/
theorem writeCells_all (hfirst : NullsFirst cells) (hplain : PlainNulls cells) (h : w.Inv dim)
    (hfits : Fits dim w position (fresh none (data cells))) :
    ∃ w', writeCells dim true cells (.null 0) position w = .ok w' ∧
      Wrote dim w w' position (fresh none (data cells)) := by
  induction cells with
  | nil => exact ⟨w, rfl, wrote_nil h hfits⟩
  | cons v cells ih =>
    cases v with
    | null reason =>
      have hzero : (Value.null reason : Value α) = .null 0 :=
        hplain _ (by rw [takeWhile_cons_of_pos rfl]; exact mem_cons_self)
      rw [writeCells, if_neg (not_not.mpr hzero.symm)]
      refine ih (nullsFirst_null.mp hfirst) ?_ hfits
      intro v hv
      exact hplain v (by rw [takeWhile_cons_of_pos rfl]; exact mem_cons_of_mem _ hv)
    | data x =>
      rw [writeCells]
      rcases hfits.write h with ⟨w₁, hwrite, hinv, hfits₁, hwrote⟩
      rcases writeCells_data true (nullsFirst_data.mp hfirst) hinv x hfits₁ with
        ⟨w', hrun, hw'⟩
      refine ⟨w', ?_, hwrote w' hw'⟩
      rw [hwrite]
      exact hrun

/-- All values of the chunk but the first are written. -/
theorem writeCells_rest (hfirst : NullsFirst cells) (reason : Nat) (h : w.Inv dim)
    (hfits : Fits dim w position (fresh none (data cells)).tail) :
    ∃ w', writeCells dim false cells (.null reason) position w = .ok w' ∧
      Wrote dim w w' position (fresh none (data cells)).tail := by
  induction cells generalizing reason with
  | nil => exact ⟨w, rfl, wrote_nil h hfits⟩
  | cons v cells ih =>
    cases v with
    | null reason' =>
      rw [writeCells]
      split
      · exact ih (nullsFirst_null.mp hfirst) reason' hfits
      · exact ih (nullsFirst_null.mp hfirst) reason hfits
    | data x =>
      exact writeCells_data false (nullsFirst_data.mp hfirst) h x hfits

/-- Whatever is written, the missing values are in front, and all the same if the first value
is written. -/
theorem nullsFirst_of_writeCells
    (h : writeCells dim writeFirstValue cells (.null reason) position w = .ok w') :
    NullsFirst cells ∧
      (writeFirstValue = true → ∀ v ∈ cells.takeWhile Value.isNull, v = .null reason) := by
  induction cells generalizing reason position w with
  | nil => simp [NullsFirst]
  | cons v cells ih =>
    rw [writeCells] at h
    cases v with
    | null reason' =>
      rw [takeWhile_cons_of_pos rfl, forall_mem_cons]
      split at h
      · cases writeFirstValue with
        | true =>
          rw [Writer.writeValue_null] at h
          cases h
        | false =>
          exact ⟨(ih h).1, nofun⟩
      · rename_i hsame
        exact ⟨(ih h).1, fun hwrite => ⟨(not_not.mp hsame).symm, (ih h).2 hwrite⟩⟩
    | data x =>
      rw [nullsFirst_data, takeWhile_cons_of_neg (by simp [Value.isNull])]
      refine ⟨?_, by simp⟩
      rw [if_pos (by simp)] at h
      split at h
      · rcases bind_eq_ok.mp h with ⟨w₁, -, hrun⟩
        exact nonNull_of_writeCells hrun
      · exact nonNull_of_writeCells h

/-! ## All chunks -/

namespace Input

variable {I : Input α} {c : Int × OrdMap Int (Value α)} {chunks : List (Int × OrdMap Int (Value α))}
  {output : OrdMap Int OutputChunkInfo}

/-- A chunk whose values can be written: nothing of it is new, or its missing values do not
get in the way. -/
def Quiet (I : Input α) (c : Int × OrdMap Int (Value α)) : Prop :=
  (∀ x ∈ data (cellValues c.2), (I.valuesBefore c.1).getLast? = some x) ∨
    (NullsFirst (cellValues c.2) ∧
      ((I.valuesBefore c.1).getLast? = (data (cellValues c.2)).head? ∨ PlainNulls (cellValues c.2)))

/-- What a chunk contributes. -/
def newValues (I : Input α) (c : Int × OrdMap Int (Value α)) : List α :=
  fresh (I.valuesBefore c.1).getLast? (data (cellValues c.2))

/-- The position of the first value that a chunk contributes. -/
def offset (I : Input α) (c : Int × OrdMap Int (Value α)) : Nat :=
  (fresh none (I.valuesBefore c.1)).length

theorem newValues_eq_nil : I.newValues c = [] ↔
    ∀ x ∈ data (cellValues c.2), (I.valuesBefore c.1).getLast? = some x :=
  fresh_eq_nil

theorem place_of_ne_nil (h : I.newValues c ≠ []) :
    I.place c = OutputChunkInfo.mk (I.offset c)
      (decide ((I.valuesBefore c.1).getLast? ≠ (data (cellValues c.2)).head?)) := by
  rw [newValues] at h
  rw [place, placeOf, if_neg h]
  rfl

theorem place_neg_iff : (I.place c).startingPosition < 0 ↔ I.newValues c = [] := by
  constructor
  · intro h
    by_contra hne
    rw [place_of_ne_nil hne] at h
    dsimp only at h
    omega
  · intro h
    rw [newValues] at h
    rw [place, placeOf, if_pos h]
    decide

/-- The new values of a quiet chunk can be written. -/
theorem writeCells_of_quiet (hnew : I.newValues c ≠ []) (h : w.Inv dim)
    (hfits : Fits dim w (I.offset c) (I.newValues c)) (hquiet : I.Quiet c) :
    ∃ w', writeCells dim (I.place c).writeFirstValue (cellValues c.2) (.null 0)
      (I.place c).startingPosition w = .ok w' ∧ Wrote dim w w' (I.offset c) (I.newValues c) := by
  rw [place_of_ne_nil hnew]
  rcases hquiet.resolve_left fun hall => hnew (newValues_eq_nil.mpr hall) with ⟨hfirst, hplain⟩
  by_cases hhead : (I.valuesBefore c.1).getLast? = (data (cellValues c.2)).head?
  · -- the first value repeats the one before the chunk
    have hvalues : I.newValues c = (fresh none (data (cellValues c.2))).tail := by
      rw [newValues, fresh_eq, if_pos hhead]
    rw [hvalues] at hfits ⊢
    rw [decide_eq_false (not_not.mpr hhead)]
    exact writeCells_rest hfirst 0 h hfits
  · have hvalues : I.newValues c = fresh none (data (cellValues c.2)) := by
      rw [newValues, fresh_eq, if_neg hhead]
    rw [hvalues] at hfits ⊢
    rw [decide_eq_true hhead]
    exact writeCells_all hfirst (hplain.resolve_left hhead) h hfits

/-- Only the new values of a quiet chunk can be written. -/
theorem quiet_of_writeCells (hnew : I.newValues c ≠ [])
    (h : writeCells dim (I.place c).writeFirstValue (cellValues c.2) (.null 0) position w =
      .ok w') : I.Quiet c := by
  rw [place_of_ne_nil hnew] at h
  rcases nullsFirst_of_writeCells h with ⟨hfirst, hplain⟩
  refine .inr ⟨hfirst, ?_⟩
  by_cases hhead : (I.valuesBefore c.1).getLast? = (data (cellValues c.2)).head?
  · exact .inl hhead
  · exact .inr (hplain (decide_eq_true hhead))

/-- The positions after a chunk. -/
theorem offset_add_le {c' : Int × OrdMap Int (Value α)} (hc : c ∈ I.chunks.entries)
    (hlt : c.1 < c'.1) : I.offset c + (I.newValues c).length ≤ I.offset c' := by
  rcases append_of_mem hc with ⟨front, rest, hsplit⟩
  have hbefore := valuesBefore_eq hsplit
  have hsorted := I.chunks.sorted
  rw [hsplit, Sorted, pairwise_append] at hsorted
  have hlater : I.valuesBefore c'.1 = I.valuesBefore c.1 ++ (data (cellValues c.2) ++
      valuesOf (rest.filter fun e => e.1 < c'.1)) := by
    rw [hbefore, valuesBefore, hsplit, filter_append, valuesOf_append,
      filter_cons_of_pos (by simpa using hlt), valuesOf_cons]
    rw [filter_eq_self.mpr]
    intro e he
    have := hsorted.2.2 e he c mem_cons_self
    simp only [decide_eq_true_eq]
    omega
  rw [offset, offset, newValues, hlater, fresh_append, latest_none, fresh_append,
    length_append, length_append]
  omega

omit [DecidableEq α] in
theorem length_entries_le {l : List (Int × Value α)} (hsorted : Sorted l) {n : Int}
    (hrange : ∀ e ∈ l, 0 ≤ e.1 ∧ e.1 ≤ n) (hn : -1 ≤ n) : (l.length : Int) ≤ n + 1 := by
  have hsub : (l.map Prod.fst).toFinset ⊆ Finset.Icc 0 n := by
    intro x hx
    rcases mem_map.mp (mem_toFinset.mp hx) with ⟨e, he, rfl⟩
    exact Finset.mem_Icc.mpr (hrange e he)
  have hcard := Finset.card_le_card hsub
  rw [toFinset_card_of_nodup hsorted.nodup, length_map, Int.card_Icc] at hcard
  omega

omit [DecidableEq α] in
/-- There are no more values than coordinates. -/
theorem length_values_le (I : Input α) :
    ((valuesOf I.chunks.entries).length : Int) ≤ I.dim.endMax + 1 := by
  have hcells : Sorted (I.chunks.entries.flatMap fun c => c.2.entries) := by
    rw [Sorted, pairwise_flatMap]
    refine ⟨fun c _ => c.2.sorted, I.chunks.sorted.imp_of_mem ?_⟩
    intro c c' hc hc' hlt e he e' he'
    have hin := (I.cells_in c hc e he).2.2
    have hin' := (I.cells_in c' hc' e' he').2.2
    by_contra hge
    have hmono : getChunkPosition I.dim e'.1 ≤ getChunkPosition I.dim e.1 :=
      getChunkPosition_mono (not_lt.mp hge)
    omega
  have hle : (valuesOf I.chunks.entries).length ≤
      (I.chunks.entries.flatMap fun c => c.2.entries).length := by
    generalize I.chunks.entries = cs
    induction cs with
    | nil => exact le_refl _
    | cons c cs ih =>
      rw [valuesOf_cons, flatMap_cons, length_append, length_append]
      have hone : (data (cellValues c.2)).length ≤ c.2.entries.length :=
        (length_filterMap_le _ _).trans_eq (length_map _)
      omega
  have hbound : ∀ e ∈ I.chunks.entries.flatMap fun c => c.2.entries, 0 ≤ e.1 ∧
    e.1 ≤ I.dim.endMax := by
    intro e he
    rcases mem_flatMap.mp he with ⟨c, hc, he⟩
    have := I.cells_in c hc e he
    exact ⟨this.1, this.2.1⟩
  have hend := I.dim.start_le_end
  have hstart := I.startMin_eq
  have := length_entries_le hcells hbound (by omega)
  omega

/-- All values fit into the output. -/
theorem offset_add_le_end (hc : c ∈ I.chunks.entries) :
    ((I.offset c + (I.newValues c).length : Nat) : Int) ≤ I.outputDim.endMax + 1 := by
  rcases append_of_mem hc with ⟨front, rest, hsplit⟩
  have hbefore := valuesBefore_eq hsplit
  have hall : valuesOf I.chunks.entries =
      I.valuesBefore c.1 ++ (data (cellValues c.2) ++ valuesOf rest) := by
    rw [hbefore, hsplit, valuesOf_append, valuesOf_cons]
  have hlen : I.offset c + (I.newValues c).length ≤
    (fresh none (valuesOf I.chunks.entries)).length := by
    rw [offset, newValues, hall, fresh_append, latest_none, fresh_append, length_append,
      length_append]
    omega
  have hfresh : (fresh none (valuesOf I.chunks.entries)).length ≤ _ := length_fresh_le
  have hvalues := I.length_values_le
  have hmax := I.dim.le_getMax
  have hend : I.outputDim.endMax = 2 ^ 62 - 1 := rfl
  omega

/-- The output of a chunk. -/
def piece (I : Input α) (c : Int × OrdMap Int (Value α)) : List (Int × Value α) :=
  placed (I.offset c) (I.newValues c)

/-- The chunks of an instance are written if all of them are quiet. -/
theorem writeChunks_spec (houtput : ∀ c ∈ I.chunks.entries, output.get c.1 = some (I.place c))
    (hchunks : ∀ c ∈ chunks, c ∈ I.chunks.entries) (hsorted : Sorted chunks)
    (hquiet : ∀ c ∈ chunks, I.Quiet c) (h : w.Inv I.outputDim)
    (hnext : ∀ c ∈ chunks, w.outputCellPosition < I.offset c) :
    ∃ w', writeChunks I.outputDim output chunks w = .ok w' ∧ w'.Inv I.outputDim ∧
      w'.cells = w.cells ++ chunks.flatMap I.piece := by
  induction chunks generalizing w with
  | nil => exact ⟨w, rfl, h, (append_nil _).symm⟩
  | cons c chunks ih =>
    rw [Sorted, pairwise_cons] at hsorted
    have hc := hchunks c mem_cons_self
    have hchunks' := fun c' hc' => hchunks c' (mem_cons_of_mem c hc')
    have hquiet' := fun c' hc' => hquiet c' (mem_cons_of_mem c hc')
    have hnext' := fun c' hc' => hnext c' (mem_cons_of_mem c hc')
    rw [writeChunks, houtput c hc]
    dsimp only
    by_cases hnil : I.newValues c = []
    · rw [if_pos (place_neg_iff.mpr hnil), flatMap_cons, piece, hnil]
      exact ih hchunks' hsorted.2 hquiet' h hnext'
    · have hfits : Fits I.outputDim w (I.offset c) (I.newValues c) := by
        refine ⟨rfl, hnext c mem_cons_self, ?_⟩
        have := I.offset_add_le_end hc
        exact this
      rcases writeCells_of_quiet hnil h hfits (hquiet c mem_cons_self) with
        ⟨w₁, hrun, hinv, hcell, hcells⟩
      rw [if_neg (mt place_neg_iff.mp hnil), hrun]
      have hnext₁ : ∀ c' ∈ chunks, w₁.outputCellPosition < I.offset c' := by
        intro c' hc'
        have := offset_add_le hc (hsorted.1 c' hc')
        omega
      rcases ih hchunks' hsorted.2 hquiet' hinv hnext₁ with ⟨w', hrest, hinv', hcells'⟩
      refine ⟨w', hrest, hinv', ?_⟩
      rw [hcells', hcells, append_assoc]
      rfl

theorem quiet_of_writeChunks
    (houtput : ∀ c ∈ I.chunks.entries, output.get c.1 = some (I.place c))
    (hchunks : ∀ c ∈ chunks, c ∈ I.chunks.entries)
    (h : writeChunks I.outputDim output chunks w = .ok w') : ∀ c ∈ chunks, I.Quiet c := by
  induction chunks generalizing w with
  | nil => simp
  | cons c chunks ih =>
    obtain ⟨hc, hchunks⟩ := forall_mem_cons.mp hchunks
    rw [writeChunks, houtput c hc] at h
    dsimp only at h
    by_cases hnil : I.newValues c = []
    · rw [if_pos (place_neg_iff.mpr hnil)] at h
      exact forall_mem_cons.mpr ⟨.inl (newValues_eq_nil.mp hnil), ih hchunks h⟩
    · rw [if_neg (mt place_neg_iff.mp hnil)] at h
      rcases bind_eq_ok.mp h with ⟨w₁, hrun, hrest⟩
      exact forall_mem_cons.mpr ⟨quiet_of_writeCells hnil hrun, ih hchunks hrest⟩

omit [DecidableEq α] in
theorem mem_onInstance {i : Fin I.nInstances} :
    c ∈ (I.onInstance i).entries ↔ c ∈ I.chunks.entries ∧ I.instanceOf c.1 = i := by
  refine mem_filter.trans ?_
  rw [decide_eq_true_iff]

omit [DecidableEq α] in
/-- Each chunk is on one instance. -/
theorem perm_instances (I : Input α) :
    ((List.finRange I.nInstances).flatMap fun i => (I.onInstance i).entries).Perm
      I.chunks.entries := by
  have hnodup : ∀ m : OrdMap Int (OrdMap Int (Value α)), m.entries.Nodup := fun m =>
    m.sorted.nodup.of_map
  rw [perm_ext_iff_of_nodup _ (hnodup I.chunks)]
  · intro c
    rw [mem_flatMap]
    constructor
    · rintro ⟨i, -, hc⟩
      exact (mem_onInstance.mp hc).1
    · intro hc
      exact ⟨I.instanceOf c.1, mem_finRange _, mem_onInstance.mpr ⟨hc, rfl⟩⟩
  · rw [nodup_flatMap]
    refine ⟨fun i _ => hnodup _, (nodup_finRange _).imp ?_⟩
    intro i j hne c hc hc'
    exact hne ((mem_onInstance.mp hc).2.symm.trans (mem_onInstance.mp hc').2)

/-- The pieces of all chunks are the collapsed values. -/
theorem flatMap_piece {front rest : List (Int × OrdMap Int (Value α))}
    (h : I.chunks.entries = front ++ rest) :
    placed 0 (fresh none (valuesOf front)) ++ rest.flatMap I.piece =
      placed 0 (fresh none (valuesOf I.chunks.entries)) := by
  induction rest generalizing front with
  | nil => rw [h, append_nil, flatMap_nil, append_nil]
  | cons c rest ih =>
    have hbefore := valuesBefore_eq h
    have hfront : valuesOf (front ++ [c]) = valuesOf front ++ data (cellValues c.2) := by
      rw [valuesOf_append]
      exact congrArg _ (append_nil _)
    have hsplit : I.chunks.entries = (front ++ [c]) ++ rest := by
      rw [h, append_assoc]
      rfl
    rw [← ih hsplit, hfront, fresh_append, latest_none, placed_append, flatMap_cons, piece,
      offset, newValues, hbefore, zero_add, append_assoc]

/-- The operator is exact for the arrays all of whose chunks are quiet. -/
theorem uniq_exact_iff (I : Input α) : I.Exact ↔ ∀ c ∈ I.chunks.entries, I.Quiet c := by
  constructor
  · rintro ⟨out, hrun, -⟩ c hc
    have hexec := hrun (I.instanceOf c.1)
    rcases exchangeArrayInfo_spec I (I.instanceOf c.1) with ⟨output, hexchange, houtput⟩
    rcases bind_eq_ok.mp hexec with ⟨output', hexchange', hexec⟩
    rw [hexchange] at hexchange'
    cases hexchange'
    rcases bind_eq_ok.mp hexec with ⟨w, hwrite, -⟩
    exact quiet_of_writeChunks houtput (fun c hc => (mem_onInstance.mp hc).1) hwrite c
      (mem_onInstance.mpr ⟨hc, rfl⟩)
  · intro hquiet
    have hrun : ∀ i, ∃ w : Writer α, I.execute i = .ok w.chunks ∧ w.Inv I.outputDim ∧
        w.cells = (I.onInstance i).entries.flatMap I.piece := by
      intro i
      rcases exchangeArrayInfo_spec I i with ⟨output, hexchange, houtput⟩
      rcases writeChunks_spec houtput (fun c hc => (mem_onInstance.mp hc).1)
        (I.onInstance i).sorted (fun c hc => hquiet c (mem_onInstance.mp hc).1) Writer.inv_new
        (fun c _ => by dsimp only; omega) with ⟨w, hwrite, hinv, hcells⟩
      refine ⟨w, ?_, hinv, hcells⟩
      rw [execute, hexchange]
      change (writeChunks I.outputDim output (I.onInstance i).entries {} >>= _) = _
      rw [hwrite]
      rfl
    choose w hexec hinv hcells using hrun
    refine ⟨fun i => (w i).chunks, hexec, fun i => (hinv i).placed, ?_⟩
    have hnone : I.chunks.entries = [] ++ I.chunks.entries := rfl
    have hall := flatMap_piece hnone
    have hperm := (I.perm_instances).flatMap_right I.piece
    rw [flatMap_assoc] at hperm
    have hout : ((List.finRange I.nInstances).flatMap fun i => (w i).chunks.flatMap Prod.snd) =
        (List.finRange I.nInstances).flatMap fun i => (I.onInstance i).entries.flatMap I.piece := by
      congr 1
      funext i
      exact hcells i
    rw [hout, expected, ← fresh_none, ← placed_eq_zipIdx]
    exact hperm.trans (List.Perm.of_eq hall)

/-! ## An array with a missing value -/

/-- One chunk with the value 7 and, behind it, a missing one. -/
def sevenThenNull : Input Nat where
  dim := .ofBounds 0 9 10 (by decide)
  startMin_eq := rfl
  chunks := ⟨[(0, ⟨[(0, .data 7), (1, .null 0)], by simp [Sorted]⟩)], by simp [Sorted]⟩
  cells_in := by decide
  nInstances := 1
  instanceOf := fun _ => 0
  chunkSize := 1000000
  chunkSize_pos := by decide
  chunkSize_lt := by decide

/-- The missing value is refused when it is written. -/
theorem uniq_fails_on_null :
    sevenThenNull.execute (0 : Fin 1) = .error .inconsistency ∧ ¬sevenThenNull.Exact := by
  have hrun : sevenThenNull.execute (0 : Fin 1) = .error .inconsistency := rfl
  refine ⟨hrun, ?_⟩
  rintro ⟨out, hok, -⟩
  have hzero := hok (0 : Fin 1)
  rw [hrun] at hzero
  cases hzero

end Input

end SciDB.Operators.Uniq
