import SciDB.Rle.Append

/-!
# The unfinished segment

What the appender stands for between two calls: the cells of its finished
segments and those of the unfinished one, over the values stored so far.

Main results:

- Theorem {lit}`Appending.add`: adding a run of one value appends its cells.
-/

namespace SciDB.Rle

open List

/-! ## The invariant -/

/-- The appender has stored the values; its finished segments hold the cells
`done` and its unfinished one the cells `cur`. -/
structure Appending (a : Appender) (values : List Datum) (done cur : List Value) : Prop where
  few_cells : done.length + cur.length < 2 ^ 63
  few_values : values.length ≤ 2 ^ 30
  admits : ∀ d ∈ values, a.kind.Admits d
  stored : Stored a.data a.varPart values a.kind
  index : a.valueIndex = values.length
  covers : Covers values a.container done
  position : a.segm.pPosition = done.length
  length : a.segLength = cur.length
  cells : ∀ k v, cur[k]? = some v → a.segm.cellAt values k = some v
  /-- An unfinished segment of values ends with the last stored one. -/
  prev : cur ≠ [] → a.segm.null = false → ∃ d, a.prevVal = .datum d ∧ values.getLast? = some d
  run : cur ≠ [] → a.segm.null = false → a.segm.same = true → a.segm.valueIndex + 1 = values.length
  literal : cur ≠ [] → a.segm.null = false → a.segm.same = false →
    1 < cur.length ∧ a.segm.valueIndex + cur.length = values.length

namespace Appending

variable {a : Appender} {values : List Datum} {done cur : List Value} {count : Nat} {d : Datum}
  {data' varPart' : List UInt8}

theorem start (kind : Kind) : Appending (Appender.start kind) [] [] [] where
  few_cells := by simp
  few_values := by simp
  admits := by simp
  stored := by
    cases kind
    · refine ⟨rfl, rfl, ?_⟩
      intro j b hb
      simp [Appender.start] at hb
    · exact ⟨rfl, rfl⟩
    · exact ⟨rfl, rfl, by simp⟩
  index := rfl
  covers := .nil
  position := rfl
  length := rfl
  cells := by simp
  prev := by simp
  run := by simp
  literal := by simp

section

variable (h : Appending a values done cur)

include h

/-- The segments so far lie before the unfinished one. -/
theorem addSegment_eq : addSegment a.container a.segm = .ok (a.container ++ [a.segm]) := by
  rw [addSegment, require_pos]
  intro last hlast
  have := h.covers.pPosition_lt last (mem_of_getLast? hlast)
  rw [h.position]
  exact this.2

theorem segLength_ne_zero : a.segLength ≠ 0 ↔ cur ≠ [] := by
  rw [h.length, ne_eq, length_eq_zero_iff]

/-- Finish the unfinished segment. -/
theorem close (hcur : cur ≠ []) :
    ∃ a', a.close = .ok a' ∧ Appending a' values (done ++ cur) [] ∧ a'.kind = a.kind ∧
      a'.varPart = a.varPart ∧ a'.segm.same = a.segm.same ∧ a'.segm.null = a.segm.null := by
  have hfew := h.few_cells
  rw [Appender.close, h.addSegment_eq]
  refine ⟨_, rfl, ?_, rfl, rfl, rfl, rfl⟩
  constructor
  · simpa using hfew
  · exact h.few_values
  · exact h.admits
  · exact h.stored
  · exact h.index
  · exact h.covers.snoc h.position hcur h.cells
  · show toPosition (a.segm.pPosition + a.segLength) = _
    rw [h.position, h.length, length_append]
    exact_mod_cast toPosition_natCast hfew
  · rfl
  · simp
  · simp
  · simp
  · simp

/-- Finish the unfinished segment, if there is one. -/
theorem ready :
    ∃ b, (if a.segLength ≠ 0 then a.close else .ok a) = .ok b ∧
      Appending b values (done ++ cur) [] ∧ b.kind = a.kind ∧ b.varPart = a.varPart := by
  by_cases hcur : cur = []
  · subst hcur
    rw [if_neg (by simp [h.length])]
    exact ⟨a, rfl, by simpa using h, rfl, rfl⟩
  · rw [if_pos (h.segLength_ne_zero.mpr hcur)]
    rcases h.close hcur with ⟨b, hb, hinv, hkind, hvarPart, _⟩
    exact ⟨b, hb, hinv, hkind, hvarPart⟩

end

theorem setValueIndex_eq {s : Segment} {index : Nat} (h : index < 2 ^ 30) :
    s.setValueIndex index = .ok { s with valueIndex := index } := by
  have hmax : index ≤ maxDataIndex := by
    unfold maxDataIndex
    omega
  rw [Segment.setValueIndex, require_pos (by omega), require_pos hmax]

/-- Nulls extend a segment of the same nulls or start a new one. -/
theorem addNull (h : Appending a values done cur) (reason : Fin 128)
    (hfew : done.length + cur.length + count < 2 ^ 63) :
    ∃ a' done' cur', a.addNull reason count = .ok a' ∧ Appending a' values done' cur' ∧
      done' ++ cur' = done ++ cur ++ List.replicate count (.null reason) ∧ a'.kind = a.kind ∧
      a'.segm.null = true := by
  -- what is left is empty or consists of the same nulls
  have hready : ∃ b done₁ cur₁, (if a.segLength ≠ 0 ∧
        (¬ a.segm.null ∨ a.segm.valueIndex ≠ reason) then a.close else .ok a) = .ok b ∧
      Appending b values done₁ cur₁ ∧ done₁ ++ cur₁ = done ++ cur ∧ b.kind = a.kind ∧
      ∀ v ∈ cur₁, v = .null reason := by
    split
    · rename_i hclose
      rcases h.close (h.segLength_ne_zero.mp hclose.1) with ⟨b, hb, hinv, hkind, _⟩
      exact ⟨b, _, _, hb, hinv, by simp, hkind, by simp⟩
    · rename_i hopen
      refine ⟨a, done, cur, rfl, h, rfl, rfl, ?_⟩
      intro v hv
      have hne : a.segLength ≠ 0 := h.segLength_ne_zero.mpr (ne_nil_of_mem hv)
      rcases getElem?_of_mem hv with ⟨k, hk⟩
      have hcell := h.cells k v hk
      push Not at hopen
      rcases hopen hne with ⟨hnull, hreason⟩
      rw [Segment.cellAt, if_pos hnull, dif_pos (by omega)] at hcell
      rw [← Option.some.inj hcell]
      congr 1
      exact Fin.ext hreason
  rcases hready with ⟨b, done₁, cur₁, hb, hinv, heq, hkind, hnulls⟩
  have hlen : done₁.length + cur₁.length = done.length + cur.length := by
    rw [← length_append, heq, length_append]
  have hreason : (reason : Nat) < 2 ^ 30 := by omega
  rw [Appender.addNull, hb]
  simp only [setValueIndex_eq hreason]
  refine ⟨_, done₁, cur₁ ++ List.replicate count (.null reason), rfl, ?_, ?_, hkind, rfl⟩
  · exact
      { hinv with
        few_cells := by
          rw [length_append, length_replicate]
          omega
        length := by
          show (b.segLength + count) % 2 ^ 64 = _
          rw [hinv.length, length_append, length_replicate, Nat.mod_eq_of_lt (by omega)]
        cells := by
          intro k v hv
          have hv' : v = .null reason := by
            rcases mem_append.mp (mem_of_getElem? hv) with hmem | hmem
            · exact hnulls v hmem
            · exact eq_of_mem_replicate hmem
          rw [hv', Segment.cellAt, if_pos rfl, dif_pos]
        prev := nofun
        run := nofun
        literal := nofun }
  · rw [← append_assoc, heq]

/-- Store one value. -/
theorem store_eq {x : Appender} {values : List Datum}
    (hstored : Stored x.data x.varPart values x.kind) (hindex : x.valueIndex = values.length)
    (hd : x.kind.Admits d) (hvar : x.kind = .varying → x.varPart.length < 2 ^ 32) :
    ∃ data' varPart', x.store d = .ok
        { x with data := data', varPart := varPart', valueIndex := values.length + 1 } ∧
      Stored data' varPart' (values ++ [d]) x.kind := by
  rcases appendValue_spec hstored hd hvar with ⟨data', varPart', happend, hstored'⟩
  refine ⟨data', varPart', ?_, hstored'⟩
  rw [Appender.store, hindex, happend]
  rfl

/-- The state after a run of a new value. -/
theorem newRun (h : Appending a values done []) (hd : a.kind.Admits d)
    (hfew : done.length + count < 2 ^ 63) (hvalues : values.length < 2 ^ 30)
    (hstored : Stored data' varPart' (values ++ [d]) a.kind) :
    Appending
      { a with
        segm := { a.segm with same := true, null := false, valueIndex := values.length }
        segLength := count, data := data', varPart := varPart'
        valueIndex := values.length + 1, prevVal := .datum d }
      (values ++ [d]) done (List.replicate count (.datum d)) := by
  constructor
  · rw [length_replicate]
    exact hfew
  · rw [length_append, length_singleton]
    omega
  · exact forall_mem_append.mpr ⟨h.admits, forall_mem_singleton.mpr hd⟩
  · exact hstored
  · rw [length_append, length_singleton]
  · exact h.covers.mono [d]
  · exact h.position
  · rw [length_replicate]
  · intro k v hv
    rw [eq_of_mem_replicate (mem_of_getElem? hv), Segment.cellAt]
    simp
  · exact fun _ _ => ⟨d, rfl, by simp⟩
  · exact fun _ _ _ => by simp
  · nofun

/-- The unfinished segment can take further values as a literal. -/
def Extendable (a : Appender) (cur : List Value) : Prop :=
  a.segm.null = false ∧ (a.segm.same = true → cur.length = 1)

theorem Extendable.index (hopen : Extendable a cur) (h : Appending a values done cur)
    (hcur : cur ≠ []) : a.segm.valueIndex + cur.length = values.length := by
  cases hsame : a.segm.same with
  | true =>
    rw [hopen.2 hsame]
    exact h.run hcur hopen.1 hsame
  | false => exact (h.literal hcur hopen.1 hsame).2

variable (h : Appending a values done cur)

include h

/-- The state after values that extend or start a literal. -/
theorem newLiteral (hopen : cur ≠ [] → Extendable a cur) {ds : List Datum}
    (hds : ∀ d ∈ ds, a.kind.Admits d) (hlen : 1 < cur.length + ds.length) {last : Datum}
    (hlast : ds.getLast? = some last) (hfew : done.length + cur.length + ds.length < 2 ^ 63)
    (hvalues : values.length + ds.length ≤ 2 ^ 30)
    (hstored : Stored data' varPart' (values ++ ds) a.kind) :
    Appending
      { a with
        segm := { a.segm with same := false, null := false, valueIndex :=
          values.length - cur.length }
        segLength := cur.length + ds.length, data := data', varPart := varPart'
        valueIndex := values.length + ds.length, prevVal := .datum last }
      (values ++ ds) done (cur ++ ds.map .datum) := by
  have hle : cur.length ≤ values.length := by
    by_cases hcur : cur = []
    · simp [hcur]
    · have := (hopen hcur).index h hcur
      omega
  constructor
  · rw [length_append, length_map]
    omega
  · rw [length_append]
    exact hvalues
  · exact forall_mem_append.mpr ⟨h.admits, hds⟩
  · exact hstored
  · rw [length_append]
  · exact h.covers.mono ds
  · exact h.position
  · rw [length_append, length_map]
  · intro k v hv
    rw [Segment.cellAt]
    simp only [Bool.false_eq_true, if_false]
    by_cases hk : k < cur.length
    · -- the cells of the unfinished segment stay where they are
      rw [getElem?_append_left hk] at hv
      have hcur : cur ≠ [] := ne_nil_of_mem (mem_of_getElem? hv)
      have hindex := (hopen hcur).index h hcur
      have hcell := h.cells k v hv
      rw [Segment.cellAt, if_neg (by simp [(hopen hcur).1])] at hcell
      rw [getElem?_append_left (by omega), ← hcell]
      congr 2
      split
      · rename_i hsame
        have := (hopen hcur).2 hsame
        omega
      · omega
    · rw [getElem?_append_right (by omega), getElem?_map] at hv
      rw [getElem?_append_right (by omega), ← hv]
      congr 2
      omega
  · refine fun _ _ => ⟨last, rfl, ?_⟩
    rw [getLast?_append, hlast]
    rfl
  · nofun
  · refine fun _ _ _ => ⟨by rw [length_append, length_map]; exact hlen, ?_⟩
    simp only [length_append, length_map]
    omega

/-- A value equal to the last one lengthens a run. -/
theorem lengthenRun (hcur : cur ≠ []) (hnull : a.segm.null = false) (hsame : a.segm.same = true)
    (hfew : done.length + cur.length + count < 2 ^ 63) :
    Appending (a.lengthen count) values done (cur ++ List.replicate count a.prevVal) := by
  have hindex := h.run hcur hnull hsame
  rcases h.prev hcur hnull with ⟨d, hprev, hlast⟩
  have hd : values[a.segm.valueIndex]? = some d := by
    rw [getLast?_eq_getElem?, ← hindex] at hlast
    exact hlast
  constructor
  · rw [length_append, length_replicate]
    omega
  · exact h.few_values
  · exact h.admits
  · exact h.stored
  · exact h.index
  · exact h.covers
  · exact h.position
  · show (a.segLength + count) % 2 ^ 64 = _
    rw [h.length, length_append, length_replicate, Nat.mod_eq_of_lt (by omega)]
  · intro k v hv
    by_cases hk : k < cur.length
    · rw [getElem?_append_left hk] at hv
      exact h.cells k v hv
    · have hmem : v ∈ List.replicate count a.prevVal := by
        rw [getElem?_append_right (by omega)] at hv
        exact mem_of_getElem? hv
      show a.segm.cellAt values k = some v
      rw [eq_of_mem_replicate hmem, hprev, Segment.cellAt, if_neg (by simp [hnull]),
        if_pos hsame, hd]
      rfl
  · exact fun _ _ => h.prev hcur hnull
  · exact fun _ _ _ => hindex
  · exact fun _ _ hno => absurd (hsame.symm.trans hno) (by simp)

/-- A value equal to the last one of a literal starts a run with it. -/
theorem stealLast (hcur : cur ≠ []) (hnull : a.segm.null = false) (hsame : a.segm.same = false)
    (hfew : done.length + cur.length + count < 2 ^ 63) :
    Appending
      { a with
        container := a.container ++ [a.segm]
        segm := { a.segm.addToPPosition (a.segLength - 1) with
          same := true, valueIndex := a.valueIndex - 1 }
        segLength := (1 + count) % 2 ^ 64 }
      values (done ++ cur.dropLast) (List.replicate (1 + count) a.prevVal) ∧
    cur = cur.dropLast ++ [a.prevVal] := by
  rcases h.literal hcur hnull hsame with ⟨hlen, hindex⟩
  rcases h.prev hcur hnull with ⟨d, hprev, hlast⟩
  have hd : values[values.length - 1]? = some d := by
    rw [← getLast?_eq_getElem?]
    exact hlast
  have hdrop : cur.dropLast ≠ [] := by
    rw [← length_pos_iff, length_dropLast]
    omega
  have hcurLast : cur = cur.dropLast ++ [a.prevVal] := by
    have hcell := h.cells (cur.length - 1) (cur.getLast hcur)
      (by rw [← getLast?_eq_getElem?, getLast?_eq_some_getLast])
    rw [Segment.cellAt, if_neg (by simp [hnull]), if_neg (by simp [hsame]),
      show a.segm.valueIndex + (cur.length - 1) = values.length - 1 by omega, hd] at hcell
    rw [hprev, Option.some.inj hcell, dropLast_append_getLast]
  refine ⟨?_, hcurLast⟩
  constructor
  · rw [length_append, length_dropLast, length_replicate]
    omega
  · exact h.few_values
  · exact h.admits
  · exact h.stored
  · exact h.index
  · refine h.covers.snoc h.position hdrop ?_
    intro k v hv
    apply h.cells k v
    rw [hcurLast, List.getElem?_append_left (List.getElem?_eq_some_iff.mp hv).1, hv]
  · show toPosition (a.segm.pPosition + (a.segLength - 1 : Nat)) = _
    rw [h.position, h.length, length_append, length_dropLast]
    exact_mod_cast toPosition_natCast (by omega)
  · rw [length_replicate, Nat.mod_eq_of_lt (by omega)]
  · intro k v hv
    rw [eq_of_mem_replicate (mem_of_getElem? hv), hprev, Segment.cellAt]
    simp only [Segment.addToPPosition, hnull, if_true, h.index, hd]
    rfl
  · exact fun _ _ => h.prev hcur hnull
  · intro _ _ _
    simp only [h.index]
    omega
  · nofun

end Appending

/-- There is room for a value: it continues a run, or the 30 bits of the value
index and the 32 bits of the variable part can take it. -/
def Appender.HasRoom (a : Appender) (v : Value) : Prop :=
  match v with
  | .null _ => True
  | .datum d => (a.segLength ≠ 0 ∧ a.segm.null = false ∧ .datum d = a.prevVal) ∨
      (a.valueIndex < 2 ^ 30 ∧ (a.kind = .varying → a.varPart.length < 2 ^ 32))

namespace Appending

variable {a : Appender} {values : List Datum} {done cur : List Value} {count : Nat} {d : Datum}

/-- Start a run of a new value behind the finished segments. -/
theorem startRun (h : Appending a values done []) (hd : a.kind.Admits d)
    (hfew : done.length + count < 2 ^ 63) (hvalues : values.length < 2 ^ 30)
    (hvar : a.kind = .varying → a.varPart.length < 2 ^ 32) {segm : Segment}
    (hsegm : segm = { a.segm with same := true, null := false, valueIndex := a.valueIndex }) :
    ∃ a', (do
        let a ← ({ a with segm := segm }.lengthen count).store d
        return { a with prevVal := .datum d }) = .ok a' ∧
      Appending a' (values ++ [d]) done (List.replicate count (.datum d)) ∧ a'.kind = a.kind := by
  rcases @store_eq d ({ a with segm := segm }.lengthen count) values h.stored h.index hd hvar with
    ⟨data', varPart', hstore, hstored⟩
  have hlength : (a.segLength + count) % 2 ^ 64 = count := by
    rw [h.length, length_nil, Nat.zero_add, Nat.mod_eq_of_lt (by omega)]
  have hinv := h.newRun hd hfew hvalues hstored
  rw [hstore]
  refine ⟨_, rfl, ?_, rfl⟩
  simp only [Appender.lengthen, hlength, hsegm, h.index]
  exact hinv

/-- Extend the unfinished segment by one value. -/
theorem extendLiteral (h : Appending a values done cur) (hcur : cur ≠ []) (hopen : Extendable a cur)
    (hd : a.kind.Admits d) (hfew : done.length + cur.length + 1 < 2 ^ 63)
    (hvalues : values.length < 2 ^ 30) (hvar : a.kind = .varying → a.varPart.length < 2 ^ 32) :
    ∃ a', (do
        let a ← ({ a with segm := { a.segm with same := false } }.lengthen 1).store d
        return { a with prevVal := .datum d }) = .ok a' ∧
      Appending a' (values ++ [d]) done (cur ++ [.datum d]) ∧ a'.kind = a.kind := by
  rcases @store_eq d ({ a with segm := { a.segm with same := false } }.lengthen 1) values h.stored
    h.index hd hvar with ⟨data', varPart', hstore, hstored⟩
  have hlength : (a.segLength + 1) % 2 ^ 64 = cur.length + 1 := by
    rw [h.length, Nat.mod_eq_of_lt (by omega)]
  have hindex : a.segm.valueIndex = values.length - cur.length := by
    have := hopen.index h hcur
    omega
  have hlen : 1 < cur.length + [d].length := by
    have := length_pos_iff.mpr hcur
    rw [length_singleton]
    omega
  have hinv := h.newLiteral (fun _ => hopen) (by simpa using hd) hlen rfl hfew
    (by rw [length_singleton]; omega) hstored
  rw [hstore]
  refine ⟨_, rfl, ?_, rfl⟩
  simp only [Appender.lengthen, hlength, hopen.1, hindex]
  exact hinv

/-- Adding a run of one value. -/
theorem add (h : Appending a values done cur) {v : Value} (hv : a.kind.AdmitsValue v)
    (hcount : 0 < count) (hfew : done.length + cur.length + count < 2 ^ 63) (hroom : a.HasRoom v) :
    ∃ a' values' done' cur', a.add v count = .ok a' ∧ Appending a' values' done' cur' ∧
      done' ++ cur' = done ++ cur ++ List.replicate count v ∧ a'.kind = a.kind := by
  cases v with
  | null reason =>
    rcases h.addNull reason hfew with ⟨a', done', cur', ha', hinv, heq, hkind, _⟩
    exact ⟨a', values, done', cur', ha', hinv, heq, hkind⟩
  | datum d =>
    rw [Appender.add]
    by_cases hcont : a.segLength ≠ 0 ∧ ¬ a.segm.null ∧ .datum d = a.prevVal
    · have hcur := h.segLength_ne_zero.mp hcont.1
      have hnull : a.segm.null = false := by simpa using hcont.2.1
      simp only [if_pos hcont]
      cases hsame : a.segm.same with
      | true =>
        refine ⟨_, values, done, _, rfl, h.lengthenRun hcur hnull hsame hfew, ?_, rfl⟩
        rw [hcont.2.2, append_assoc]
      | false =>
        rcases h.stealLast hcur hnull hsame hfew with ⟨hinv, hsplit⟩
        have hindex : a.valueIndex - 1 < 2 ^ 30 := by
          have := h.few_values
          have := h.index
          omega
        simp only [h.addSegment_eq, setValueIndex_eq hindex]
        refine ⟨_, values, _, _, rfl, hinv, ?_, rfl⟩
        conv_rhs => rw [hsplit]
        rw [hcont.2.2, Nat.add_comm, replicate_succ]
        simp
    · have hroom' : a.valueIndex < 2 ^ 30 ∧ (a.kind = .varying → a.varPart.length < 2 ^ 32) :=
        hroom.resolve_left (by simpa using hcont)
      rw [h.index] at hroom'
      have hlength := h.length
      have hfew' : (done ++ cur).length + count < 2 ^ 63 := by
        rw [length_append]
        exact hfew
      simp only [if_neg hcont]
      by_cases hnew : a.segLength = 0 ∨ a.segm.null ∨ count > 1
      · -- the value gets a segment of its own
        rcases h.ready with ⟨b, hb, hinv, hkind, hvarPart⟩
        rcases hinv.startRun (hkind ▸ hv) hfew' hroom'.1 (hkind ▸ hvarPart ▸ hroom'.2) rfl with
          ⟨a', ha', hinv', hkind'⟩
        refine ⟨a', _, _, _, ?_, hinv', rfl, hkind'.trans hkind⟩
        rw [if_pos hnew, hb]
        simp only [bind, Except.bind, setValueIndex_eq (hinv.index ▸ hroom'.1)]
        exact ha'
      · push Not at hnew
        rcases hnew with ⟨hne, hnull, hone⟩
        have hcur := h.segLength_ne_zero.mp hne
        have hnull' : a.segm.null = false := by simpa using hnull
        have hcount1 : count = 1 := by omega
        subst hcount1
        rw [if_neg (by simp [hne, hnull'])]
        by_cases hrun : a.segLength > 1 ∧ a.segm.same
        · rcases h.close hcur with ⟨b, hb, hinv, hkind, hvarPart, hsame, hnullb⟩
          have hsegm : { b.segm with valueIndex := b.valueIndex } =
              { b.segm with same := true, null := false, valueIndex := b.valueIndex } := by
            rw [← hsame.trans hrun.2, ← hnullb.trans hnull']
          rcases hinv.startRun (hkind ▸ hv) hfew' hroom'.1 (hkind ▸ hvarPart ▸ hroom'.2) hsegm with
            ⟨a', ha', hinv', hkind'⟩
          refine ⟨a', _, _, _, ?_, hinv', rfl, hkind'.trans hkind⟩
          rw [if_pos hrun, hb]
          simp only [bind, Except.bind, setValueIndex_eq (hinv.index ▸ hroom'.1)]
          exact ha'
        · have hopen : Extendable a cur := by
            refine ⟨hnull', fun hsame => ?_⟩
            by_contra hne1
            exact hrun ⟨by omega, hsame⟩
          rcases h.extendLiteral hcur hopen hv hfew hroom'.1 hroom'.2 with
            ⟨a', ha', hinv', hkind'⟩
          refine ⟨a', _, _, _, ?_, hinv', ?_, hkind'⟩
          · rw [if_neg hrun]
            exact ha'
          · rw [replicate_one, append_assoc]

end Appending

end SciDB.Rle
