import SciDB.Rle.Appending

/-!
# Copying cells from another payload

`add(iterator& ii, uint64_t limit, bool setupPrevVal)` appends a part of one
segment of another payload.  Values of a fixed size are copied at once, other
values one by one.

Main results:

- Theorem {lit}`Holds.part`: the cells and values of a part of a segment.
- Theorem {lit}`Appending.addFrom`: the call appends the cells of the part and moves
  the iterator behind it.
-/

namespace SciDB.Rle

open List Iterator

section

variable {src : Payload} {vals : List Datum} {cs : List Value} {ii : Iterator} {pos : Nat}

/-- The values that a call has to store for `count` cells of a segment. -/
def newData (vals : List Datum) (ii : Iterator) (s : Segment) (count : Nat) : List Datum :=
  if s.null then [] else (vals.drop (ii.valueIndex s)).take (if s.same then 1 else count)

/-- A part of a segment of values: its cells, and the values stored for them. -/
structure Part (vals : List Datum) (s : Segment) (index count : Nat) (chunk : List Value)
    (ds : List Datum) : Prop where
  stored : ∀ j d, ds[j]? = some d → vals[index + j]? = some d
  run : s.same = true ∨ count = 1 → ∃ d, ds = [d] ∧ chunk = List.replicate count (.datum d)
  literal : s.same = false ∨ count = 1 → ds.length = count ∧ chunk = ds.map .datum

variable {count index j : Nat} {s s' : Segment} {ds values : List Datum} {x a : Appender}
  {cur done : List Value}

theorem getElem?_part {α : Type*} {l : List α} {v : α}
    (h : ((l.drop pos).take count)[j]? = some v) : j < count ∧ l[pos + j]? = some v := by
  rw [getElem?_take] at h
  split at h
  · rename_i hlt
    rw [getElem?_drop] at h
    exact ⟨hlt, h⟩
  · cases h

theorem chunk_eq_replicate {v : Value} (h : ∀ j < count, cs[pos + j]? = some v) :
    (cs.drop pos).take count = List.replicate count v := by
  apply ext_getElem?
  intro j
  rw [getElem?_take, getElem?_replicate]
  split
  · rw [getElem?_drop, h j ‹_›]
  · rfl

section

variable (hp : Holds src vals cs)

include hp

/-- The cells from a position on, as far as they lie in its segment. -/
theorem Holds.chunk_cell (h : Inside src ii.currSeg s s' pos)
    (hj : (pos : Int) + j < s'.pPosition) :
    ∃ v, cs[pos + j]? = some v ∧ s.cellAt vals (pos + j - s.pPosition).toNat = some v := by
  have hbounds := hp.pPosition_bounds h.seg_succ
  have hcell : cs[pos + j]? = some (cs.get ⟨pos + j, by omega⟩) := getElem?_eq_getElem _
  have hle := h.le
  have hin : Inside src ii.currSeg s s' (pos + j) :=
    ⟨h.lt, h.seg, h.seg_succ, by push_cast; omega, by exact_mod_cast hj⟩
  exact ⟨_, hcell, by exact_mod_cast hp.cell hin hcell⟩

/-- A part of a segment of nulls. -/
theorem Holds.nulls (h : Inside src ii.currSeg s s' pos) (hnull : s.null = true) (hpos : 0 < count)
    (hcount : (pos : Int) + count ≤ s'.pPosition) :
    ∃ reason : Fin 128, s.valueIndex = reason ∧
      (cs.drop pos).take count = List.replicate count (.null reason) := by
  have hcell : ∀ (k : Nat) (v : Value), s.cellAt vals k = some v →
      ∃ reason : Fin 128, s.valueIndex = reason ∧ v = .null reason := by
    intro k v hv
    rw [Segment.cellAt, if_pos hnull] at hv
    split at hv
    · rename_i hlt
      exact ⟨⟨s.valueIndex, hlt⟩, rfl, (Option.some.inj hv).symm⟩
    · cases hv
  rcases hp.chunk_cell (j := 0) h (by omega) with ⟨v, _, hv⟩
  rcases hcell _ v hv with ⟨reason, hreason, _⟩
  refine ⟨reason, hreason, chunk_eq_replicate fun j hj => ?_⟩
  rcases hp.chunk_cell h (show (pos : Int) + j < s'.pPosition by omega) with ⟨w, hw, hcell'⟩
  rcases hcell _ w hcell' with ⟨reason', hreason', rfl⟩
  rw [hw, Fin.ext (hreason'.symm.trans hreason)]

/-- A part of a segment of values. -/
theorem Holds.part (h : Inside src ii.currSeg s s' pos) (hcur : ii.currPpos = pos)
    (hnull : s.null = false) (hpos : 0 < count) (hcount : (pos : Int) + count ≤ s'.pPosition) :
    Part vals s (ii.valueIndex s) count ((cs.drop pos).take count) (newData vals ii s count) := by
  have hvalue : ∀ j < count, ∃ d, cs[pos + j]? = some (.datum d) ∧
      vals[if s.same then ii.valueIndex s else ii.valueIndex s + j]? = some d := by
    intro j hj
    rcases hp.chunk_cell h (show (pos : Int) + j < s'.pPosition by omega) with ⟨v, hv, hcell⟩
    rcases Segment.cellAt_eq hcell with ⟨hnull', _⟩ | ⟨_, d, rfl, hd⟩
    · rw [hnull] at hnull'
      cases hnull'
    · refine ⟨d, hv, ?_⟩
      rw [← hd]
      congr 1
      unfold Iterator.valueIndex
      split
      · rfl
      · rename_i hsame
        have hlt := hp.index_lt hd
        have hle := h.le
        rw [if_neg hsame] at hlt
        rw [hcur, show (s.valueIndex : Int) + pos - s.pPosition =
          (s.valueIndex + (pos - s.pPosition).toNat : Nat) by omega, toSize_natCast (by omega)]
        omega
  have hnew : newData vals ii s count =
      (vals.drop (ii.valueIndex s)).take (if s.same then 1 else count) := by
    rw [newData, if_neg (by simp [hnull])]
  constructor
  · intro j d hd
    rw [hnew] at hd
    exact (getElem?_part hd).2
  · intro hone
    have hn : (if s.same then 1 else count) = 1 := by
      split
      · rfl
      · exact hone.resolve_left ‹_›
    have hfirst : ∀ j < count, (if s.same then ii.valueIndex s else ii.valueIndex s + j) =
        ii.valueIndex s := by
      intro j hj
      split
      · rfl
      · have := hone.resolve_left ‹_›
        omega
    rcases hvalue 0 hpos with ⟨d, _, hd⟩
    rw [hfirst 0 hpos] at hd
    refine ⟨d, ?_, chunk_eq_replicate fun j hj => ?_⟩
    · rw [hnew, hn, take_one, head?_drop, hd]
      rfl
    · rcases hvalue j hj with ⟨d', hcell, hd'⟩
      rw [hfirst j hj, hd, Option.some.injEq] at hd'
      rw [hcell, hd']
  · intro hlit
    have hn : (if s.same then 1 else count) = count := by
      split
      · exact (hlit.resolve_left (by simpa using ‹s.same = true›)).symm
      · rfl
    have hcell : ∀ j < count, ∃ d, cs[pos + j]? = some (.datum d) ∧
        vals[ii.valueIndex s + j]? = some d := by
      intro j hj
      rcases hvalue j hj with ⟨d, hcell, hd⟩
      refine ⟨d, hcell, ?_⟩
      rw [← hd]
      split
      · have := hlit.resolve_left (by simpa using ‹s.same = true›)
        rw [show j = 0 by omega, Nat.add_zero]
      · rfl
    rw [hnew, hn]
    constructor
    · rcases hcell (count - 1) (by omega) with ⟨d, _, hd⟩
      have := (List.getElem?_eq_some_iff.mp hd).1
      rw [length_take, length_drop]
      omega
    · apply ext_getElem?
      intro j
      rw [getElem?_map, getElem?_take, getElem?_take]
      split
      · rcases hcell j ‹_› with ⟨d, hcell, hd⟩
        rw [getElem?_drop, getElem?_drop, hcell, hd]
        rfl
      · rfl

/-- Copying values of the source one by one. -/
theorem copyValues_eq (hstored : Stored x.data x.varPart values x.kind)
    (hindex : x.valueIndex = values.length) (hds : ∀ d ∈ ds, x.kind.Admits d)
    (hvar : x.kind = .varying → ds ≠ [] → (varBytes (values ++ ds.dropLast)).length < 2 ^ 32)
    (hat : ii.At src cs pos) (hcells : ∀ j d, ds[j]? = some d → cs[pos + j]? = some (.datum d)) :
    ∃ data' varPart' ii', Appender.copyValues src ds.length x ii = .ok ({ x with
          data := data', varPart := varPart', valueIndex := values.length + ds.length
          prevVal := (ds.getLast?.map .datum).getD x.prevVal }, ii') ∧
      Stored data' varPart' (values ++ ds) x.kind ∧ ii'.At src cs (pos + ds.length) := by
  induction ds generalizing x values ii pos with
  | nil =>
    refine ⟨x.data, x.varPart, ii, ?_, by simpa using hstored, hat⟩
    rw [← hindex]
    rfl
  | cons d ds ih =>
    have hcell : cs[pos]? = some (.datum d) := hcells 0 d rfl
    have hvarPart : x.kind = .varying → x.varPart.length < 2 ^ 32 := by
      intro hkind
      have hlen := hvar hkind (by simp)
      rw [hkind] at hstored
      rw [hstored.1]
      rw [varBytes, flatMap_append, length_append] at hlen
      exact lt_of_le_of_lt (Nat.le_add_right _ _) hlen
    rcases Appending.store_eq (x := { x with prevVal := .datum d }) hstored hindex
      (hds d mem_cons_self) hvarPart with ⟨data₁, varPart₁, hstore, hstored₁⟩
    rcases next_at hp hat (List.getElem?_eq_some_iff.mp hcell).1 with ⟨ii₁, hnext, hat₁⟩
    have hrest : x.kind = .varying → ds ≠ [] →
        (varBytes ((values ++ [d]) ++ ds.dropLast)).length < 2 ^ 32 := by
      intro hkind hne
      have hlen := hvar hkind (by simp)
      rw [dropLast_cons_of_ne_nil hne] at hlen
      rw [append_assoc]
      exact hlen
    rcases ih (x := { x with
        data := data₁, varPart := varPart₁, valueIndex := values.length + 1, prevVal := .datum d })
      hstored₁ (by simp) (fun d' hd' => hds d' (mem_cons_of_mem d hd')) hrest hat₁
      (fun j d' hd' => by
        rw [Nat.add_assoc, Nat.add_comm 1]
        exact hcells (j + 1) d' hd') with ⟨data', varPart', ii', hcopy, hstored', hat'⟩
    refine ⟨data', varPart', ii', ?_, by simpa using hstored', ?_⟩
    · rw [length_cons, Appender.copyValues, getItem_eq hp hat hcell]
      simp only [bind, Except.bind, Value.bytes, hstore, hnext, hcopy]
      have hlast : (ds.getLast?.map Value.datum).getD (.datum d) =
          ((d :: ds).getLast?.map .datum).getD x.prevVal := by
        rw [getLast?_cons]
        cases ds.getLast? <;> rfl
      rw [hlast, length_append, length_singleton, Nat.add_assoc, Nat.add_comm 1]
    · rw [length_cons, Nat.add_comm ds.length, ← Nat.add_assoc]
      exact hat'

end

theorem Part.last (h : Part vals s index count ((cs.drop pos).take count) ds)
    (hpos : 0 < count) :
    ∃ last, ds.getLast? = some last ∧ cs[pos + (count - 1)]? = some (.datum last) := by
  have hcell : ((cs.drop pos).take count)[count - 1]? = cs[pos + (count - 1)]? := by
    rw [getElem?_take_of_lt (by omega), getElem?_drop]
  cases hsame : s.same with
  | true =>
    rcases h.run (.inl hsame) with ⟨d, rfl, hchunk⟩
    refine ⟨d, rfl, ?_⟩
    rw [← hcell, hchunk, getElem?_replicate_of_lt (by omega)]
  | false =>
    rcases h.literal (.inl hsame) with ⟨hlen, hchunk⟩
    subst hlen
    have hlt : ds.length - 1 < ds.length := by omega
    refine ⟨ds.get ⟨ds.length - 1, hlt⟩, ?_, ?_⟩
    · rw [getLast?_eq_getElem?, getElem?_eq_getElem]
      rfl
    · rw [← hcell, hchunk, getElem?_map, getElem?_eq_getElem]
      rfl

theorem Part.admits {chunk : List Value} (h : Part vals s index count chunk ds)
    (hp : Holds src vals cs) : ∀ d ∈ ds, src.kind.Admits d := by
  intro d hd
  rcases getElem?_of_mem hd with ⟨j, hj⟩
  exact hp.admits d (mem_of_getElem? (h.stored j d hj))

/-- Where a fixed value lies. -/
theorem readBytes_of_getValueByIndex {p : Payload} {elemSize i : Nat} {hpos : 0 < elemSize}
    {d : Datum} (hkind : p.kind = .fixed elemSize hpos) (h : p.getValueByIndex i = .ok (.datum d)) :
    readBytes p.data (i * elemSize) elemSize = .ok d := by
  rw [Payload.getValueByIndex, require_eq_ok] at h
  simp only [hkind] at h
  rcases bind_eq_ok.mp h.2 with ⟨bytes, hread, heq⟩
  cases heq
  exact hread

/-- Copying the values of a part of a segment. -/
theorem copyCells_eq (hp : Holds src vals cs) (hkind : src.kind = x.kind)
    (hstored : Stored x.data x.varPart values x.kind) (hindex : x.valueIndex = values.length)
    (hpos : 0 < count) (hlen : pos + count ≤ cs.length)
    (hpart : Part vals s (ii.valueIndex s) count ((cs.drop pos).take count) ds)
    (hsame : x.segm.same = true → s.same = true ∨ count = 1)
    (hlit : x.segm.same = false → s.same = false ∨ count = 1) (hat : ii.At src cs pos)
    (hvalues : values.length + ds.length ≤ 2 ^ 30)
    (hvar : x.kind = .varying → (varBytes (values ++ ds.dropLast)).length < 2 ^ 32) :
    ∃ data' varPart' ii' last, ds.getLast? = some last ∧
      x.copyCells src ii s count true = .ok ({ x with
          data := data', varPart := varPart', valueIndex := values.length + ds.length
          prevVal := .datum last }, ii') ∧
      Stored data' varPart' (values ++ ds) x.kind ∧ ii'.At src cs (pos + count) := by
  have hadmits := hkind ▸ hpart.admits hp
  have hn : (if x.segm.same then 1 else count) = ds.length := by
    split
    · rcases hpart.run (hsame ‹_›) with ⟨d, rfl, _⟩
      rfl
    · exact (hpart.literal (hlit (by simpa using ‹¬ x.segm.same = true›))).1.symm
  rcases hpart.last hpos with ⟨last, hlast, hcell⟩
  -- a run stores one value, a literal copies them one by one
  have hother : ∃ data' varPart' ii', (if x.segm.same then do
        let v ← ii.getItem src
        let ii ← ii.advance src count
        let x ← Appender.store { x with prevVal := v } v.bytes
        return (x, ii)
      else Appender.copyValues src count x ii) = .ok ({ x with
          data := data', varPart := varPart', valueIndex := values.length + ds.length
          prevVal := .datum last }, ii') ∧
      Stored data' varPart' (values ++ ds) x.kind ∧ ii'.At src cs (pos + count) := by
    cases hrun : x.segm.same with
    | true =>
      rcases hpart.run (hsame hrun) with ⟨d, rfl, hchunk⟩
      cases hlast
      have hfirst : cs[pos]? = some (.datum d) := by
        have hzero : ((cs.drop pos).take count)[0]? = cs[pos]? := by
          rw [getElem?_take_of_lt hpos, getElem?_drop, Nat.add_zero]
        rw [← hzero, hchunk, getElem?_replicate_of_lt hpos]
      have hroom : x.kind = .varying → x.varPart.length < 2 ^ 32 := by
        intro hk
        have := hvar hk
        rw [hk] at hstored
        simpa [hstored.1] using this
      rcases advance_at hp hat (by omega) hlen with ⟨ii', hmove, hat'⟩
      rcases Appending.store_eq (x := { x with prevVal := .datum d }) hstored hindex
        (hadmits d mem_cons_self) hroom with ⟨data', varPart', hstore, hstored'⟩
      refine ⟨data', varPart', ii', ?_, hstored', hat'⟩
      simp only [getItem_eq hp hat hfirst, bind, Except.bind, hmove, Value.bytes, hstore]
      rfl
    | false =>
      rcases hpart.literal (hlit hrun) with ⟨hcount, hchunk⟩
      have hcells : ∀ j d, ds[j]? = some d → cs[pos + j]? = some (.datum d) := by
        intro j d hd
        have hj : j < count := hcount ▸ (List.getElem?_eq_some_iff.mp hd).1
        rw [← getElem?_drop, ← getElem?_take_of_lt hj, hchunk, getElem?_map, hd]
        rfl
      rcases copyValues_eq hp hstored hindex hadmits (fun hk _ => hvar hk) hat hcells with
        ⟨data', varPart', ii', hcopy, hstored', hat'⟩
      rw [hcount] at hcopy hat'
      rw [hlast] at hcopy
      exact ⟨data', varPart', ii', by rw [hcopy, hcount]; rfl, hstored', hat'⟩
  cases hk : x.kind with
  | fixed elemSize hsize =>
    have hread : readBytes src.data (ii.valueIndex s * elemSize) (elemSize * ds.length) =
        .ok ds.flatten := by
      apply readBytes_many (by rintro rfl; cases hlast)
      intro j d hd
      exact readBytes_of_getValueByIndex (hkind.trans hk) (hp.reads _ d (hpart.stored j d hd))
    have hmove : ∃ ii₁, (if count > 1 then ii.advance src (count - 1) else .ok ii) = .ok ii₁ ∧
        ii₁.At src cs (pos + (count - 1)) := by
      split
      · exact advance_at hp hat (by omega) (by omega)
      · refine ⟨ii, rfl, ?_⟩
        rw [show pos + (count - 1) = pos by omega]
        exact hat
    rcases hmove with ⟨ii₁, hmove, hat₁⟩
    rcases advance_at hp hat₁ (c := 1) (by omega) (by omega) with ⟨ii₂, hmove₂, hat₂⟩
    refine ⟨x.data ++ ds.flatten, x.varPart, ii₂, last, hlast, ?_, ?_, ?_⟩
    · simp only [Appender.copyCells, hk, hn, require_pos (show ds.length < 2 ^ 32 by omega), hread,
        bind, Except.bind, hmove, getItem_eq hp hat₁ hcell, hmove₂, hindex]
      rfl
    · rw [hk] at hstored
      exact ⟨hstored.1, by rw [hstored.2, flatten_append]⟩
    · rw [show pos + count = pos + (count - 1) + 1 by omega]
      exact hat₂
  | boolean | varying =>
    rcases hother with ⟨data', varPart', ii', hcopy, hrest⟩
    exact ⟨data', varPart', ii', last, hlast, by simpa only [Appender.copyCells, hk] using hcopy,
      hk ▸ hrest⟩

/-- Adding values of the source to what the appender has. -/
theorem Appending.addPart (h : Appending a values done cur) (hp : Holds src vals cs)
    (hkind : src.kind = a.kind) (hpos : 0 < count) (hlen : pos + count ≤ cs.length)
    (hpart : Part vals s (ii.valueIndex s) count ((cs.drop pos).take count) ds)
    (hat : ii.At src cs pos) (hopen : cur ≠ [] → Extendable a cur ∧ (s.same = false ∨ count = 1))
    (hfew : done.length + cur.length + count < 2 ^ 63)
    (hvalues : values.length + ds.length ≤ 2 ^ 30)
    (hvar : a.kind = .varying → (varBytes (values ++ ds.dropLast)).length < 2 ^ 32) :
    ∃ a' ii', (do
        let segm ← (if a.segLength = 0 then
            { a.segm with same := count = 1 ∨ s.same, null := false }.setValueIndex a.valueIndex
          else .ok { a.segm with same := false })
        Appender.copyCells { a.lengthen count with segm := segm } src ii s count true) =
          .ok (a', ii') ∧
      Appending a' (values ++ ds) done (cur ++ (cs.drop pos).take count) ∧ a'.kind = a.kind ∧
      ii'.At src cs (pos + count) := by
  have hlength := h.length
  have hadmits := hkind ▸ hpart.admits hp
  rcases hpart.last hpos with ⟨last, hlast, _⟩
  have hds : 0 < ds.length := length_pos_iff.mpr (by rintro rfl; cases hlast)
  have hlengthen : (a.segLength + count) % 2 ^ 64 = cur.length + count := by
    rw [hlength, Nat.mod_eq_of_lt (by omega)]
  by_cases hcur : cur = []
  · subst hcur
    have hindex : a.valueIndex < 2 ^ 30 := by
      rw [h.index]
      omega
    simp only [if_pos (show a.segLength = 0 from hlength), setValueIndex_eq hindex]
    have hlit (hrun : ¬(count = 1 ∨ s.same = true)) : s.same = false ∨ count = 1 :=
      .inl (by simpa using not_or.mp hrun |>.2)
    rcases copyCells_eq hp (x := { a.lengthen count with segm := { a.segm with
        same := count = 1 ∨ s.same, null := false, valueIndex := a.valueIndex } }) hkind h.stored
        h.index hpos hlen hpart (fun ht => (of_decide_eq_true ht).symm)
        (fun hf => hlit (of_decide_eq_false hf)) hat hvalues hvar with
      ⟨data', varPart', ii', last', hlast', hcopy, hstored', hat'⟩
    refine ⟨_, ii', hcopy, ?_, rfl, hat'⟩
    by_cases hrun : count = 1 ∨ s.same = true
    · rcases hpart.run hrun.symm with ⟨d, rfl, hchunk⟩
      cases hlast'
      have hinv := h.newRun (hadmits _ mem_cons_self) hfew (by simpa using hvalues) hstored'
      simp only [Appender.lengthen, hlengthen, hrun, h.index, length_nil, Nat.zero_add, hchunk]
      exact hinv
    · rcases hpart.literal (hlit hrun) with ⟨hcount, hchunk⟩
      have hinv := h.newLiteral (by simp) hadmits (by
        push Not at hrun
        omega) hlast' (by rw [hcount]; exact hfew) hvalues hstored'
      rw [hchunk]
      rw [hcount] at hinv
      simp only [Appender.lengthen, hlengthen, hrun, h.index, hcount]
      exact hinv
  · rcases hopen hcur with ⟨hopen, hlit⟩
    have hne : a.segLength ≠ 0 := h.segLength_ne_zero.mpr hcur
    have hindex := hopen.index h hcur
    rcases copyCells_eq hp (x := { a.lengthen count with segm := { a.segm with same := false } })
        hkind h.stored h.index hpos hlen hpart (fun ht => absurd ht (by simp)) (fun _ => hlit)
        hat hvalues hvar with ⟨data', varPart', ii', last', hlast', hcopy, hstored', hat'⟩
    rcases hpart.literal hlit with ⟨hcount, hchunk⟩
    simp only [if_neg hne]
    refine ⟨_, ii', hcopy, ?_, rfl, hat'⟩
    have hinv := h.newLiteral (fun _ => hopen) hadmits (by omega) hlast'
      (by rw [hcount]; exact hfew)
      hvalues hstored'
    have hstart : values.length - cur.length = a.segm.valueIndex := by omega
    rw [hstart, hcount] at hinv
    rw [hchunk]
    simp only [Appender.lengthen, hlengthen, hopen.1, hcount]
    exact hinv

/-- Adding a part of a segment of another payload. -/
theorem Appending.addFrom (h : Appending a values done cur) (hp : Holds src vals cs)
    (hkind : src.kind = a.kind) (hin : Inside src ii.currSeg s s' pos) (hcurr : ii.currPpos = pos)
    {limit avail : Nat} (hlimit : 0 < limit) (havail : ii.available src = .ok avail)
    (hcount : count = min limit avail) (hfew : done.length + cur.length + count < 2 ^ 63)
    (hvalues : a.valueIndex + (newData vals ii s count).length ≤ 2 ^ 30) (hvar : a.kind = .varying →
      a.varPart.length + (varBytes (newData vals ii s count).dropLast).length < 2 ^ 32) :
    ∃ a' values' done' cur' ii', a.addFrom src ii limit true = .ok (a', ii', count) ∧
      Appending a' values' done' cur' ∧ done' ++ cur' = done ++ cur ++ (cs.drop pos).take count ∧
      a'.kind = a.kind ∧ ii'.At src cs (pos + count) := by
  have hlt := hin.lt_succ
  have hstop : (pos : Int) + avail = s'.pPosition := by
    have hn := available_eq hp hin hcurr
    rw [havail, Except.ok.injEq] at hn
    omega
  have hpos : 0 < count := by omega
  have hle : (pos : Int) + count ≤ s'.pPosition := by omega
  have hbounds := hp.pPosition_bounds hin.seg_succ
  have hlen : pos + count ≤ cs.length := by omega
  have hat : ii.At src cs pos := .inl ⟨s, s', hin, hcurr⟩
  rw [Appender.addFrom, havail]
  simp only [bind, Except.bind, ← hcount, segment_eq hin]
  cases hnull : s.null with
  | true =>
    rcases hp.nulls hin hnull hpos hle with ⟨reason, hreason, hchunk⟩
    rcases h.addNull reason hfew with ⟨a', done', cur', ha', hinv, heq, hkind', _⟩
    rcases advance_at hp hat (by omega) hlen with ⟨ii', hmove, hat'⟩
    refine ⟨a', values, done', cur', ii', ?_, hinv, by rw [heq, hchunk], hkind', hat'⟩
    simp only [hreason, ha', hmove]
    rfl
  | false =>
    have hpart := hp.part hin hcurr hnull hpos hle
    -- close a segment that cannot take the values
    have hready : ∃ b done₁ cur₁, (if a.segLength ≠ 0 ∧ (a.segm.null ∨
          (a.segm.same ∧ a.segLength > 1) ∨ (s.same ∧ count > 1)) then a.close else .ok a) =
          .ok b ∧ Appending b values done₁ cur₁ ∧ done₁ ++ cur₁ = done ++ cur ∧
        b.kind = a.kind ∧ b.varPart = a.varPart ∧
        (cur₁ ≠ [] → Extendable b cur₁ ∧ (s.same = false ∨ count = 1)) := by
      split
      · rename_i hclose
        rcases h.close (h.segLength_ne_zero.mp hclose.1) with ⟨b, hb, hinv, hk, hv, _⟩
        exact ⟨b, _, _, hb, hinv, by simp, hk, hv, by simp⟩
      · rename_i hstay
        refine ⟨a, done, cur, rfl, h, rfl, rfl, rfl, ?_⟩
        intro hcur
        have hne := h.segLength_ne_zero.mpr hcur
        have hlength := h.length
        push Not at hstay
        rcases hstay hne with ⟨hnull', hrun, hlit⟩
        refine ⟨⟨by simpa using hnull', fun hsame => ?_⟩, ?_⟩
        · have := hrun hsame
          omega
        · cases hsame : s.same with
          | true =>
            have := hlit hsame
            omega
          | false => exact .inl rfl
    rcases hready with ⟨b, done₁, cur₁, hb, hinv, heq, hk, hv, hopen⟩
    have hlength : done₁.length + cur₁.length = done.length + cur.length := by
      rw [← length_append, heq, length_append]
    have hvar' : b.kind = .varying →
        (varBytes (values ++ (newData vals ii s count).dropLast)).length < 2 ^ 32 := by
      intro hkb
      have hstored := hinv.stored
      rw [hkb] at hstored
      rw [varBytes, flatMap_append, length_append]
      have := hvar (hk ▸ hkb)
      rw [← hv, hstored.1] at this
      exact this
    rcases hinv.addPart hp (hkind.trans hk.symm) hpos hlen hpart hat hopen (by omega)
      (h.index ▸ hvalues) hvar' with ⟨a', ii', hadd, hinv', hkind', hat'⟩
    refine ⟨a', _, done₁, _, ii', ?_, hinv', ?_, hkind'.trans hk, hat'⟩
    · rcases bind_eq_ok.mp hadd with ⟨segm, hsegm, hcopy⟩
      simp only [hb, hsegm, hcopy]
      rfl
    · rw [← append_assoc, heq]

end

end SciDB.Rle
