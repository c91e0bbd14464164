import SciDB.Lib.Runs
import SciDB.Rle.Copying

/-!
# Decoding what was appended

A payload that was built by any sequence of calls decodes to the cells of these
calls, by position and by an iterator that is moved in any way.

Main results:

- Theorem {lit}`Holds.decodes`: a payload that holds cells decodes to them.
- Theorem {lit}`append_decodes`: appending and decoding gives all cells back.
-/

namespace SciDB.Rle

open Runs List Iterator

/-! ## The finished payload -/

variable {values : List Datum} {a : Appender}

/-- Finishing the payload. -/
theorem Appending.flush {done cur : List Value}
    (h : Appending a values done cur) : ∃ p, a.flush = .ok p ∧ Holds p values (done ++ cur) := by
  have hready : ∃ container, (if a.segLength ≠ 0 then addSegment a.container a.segm
        else .ok a.container) = .ok container ∧ Covers values container (done ++ cur) := by
    by_cases hcur : cur = []
    · subst hcur
      rw [if_neg (by simp [h.length]), append_nil]
      exact ⟨_, rfl, h.covers⟩
    · rw [if_pos (h.segLength_ne_zero.mpr hcur), h.addSegment_eq]
      exact ⟨_, rfl, h.covers.snoc h.position hcur h.cells⟩
  rcases hready with ⟨container, hcontainer, hcovers⟩
  have hsize : toPosition (a.segm.pPosition + a.segLength) = (done ++ cur).length := by
    rw [h.position, h.length, length_append]
    exact_mod_cast toPosition_natCast h.few_cells
  have hvarPart : a.varPart ≠ [] → a.kind = .varying := by
    intro hne
    have hstored := h.stored
    cases hkind : a.kind with
    | boolean =>
      rw [hkind] at hstored
      exact absurd hstored.1 hne
    | fixed elemSize hpos =>
      rw [hkind] at hstored
      exact absurd hstored.1 hne
    | varying => rfl
  have hlast : ∀ last ∈ container.getLast?, last.pPosition < ((done ++ cur).length : Int) :=
    fun last hlast => (hcovers.pPosition_lt last (mem_of_getLast? hlast)).2
  rw [Appender.flush, hcontainer]
  simp only [bind, Except.bind, hsize, require_pos hvarPart, require_pos hlast]
  refine ⟨_, rfl, ?_⟩
  constructor
  · rw [length_append]
    exact h.few_cells
  · exact h.few_values
  · exact h.admits
  · intro i d hd
    refine Stored.reads h.stored rfl (fun hne => ?_) h.few_values h.admits hd
    exact if_neg hne
  · exact ⟨container, _, rfl, rfl, hcovers, rfl⟩

/-- A move of an iterator: `++` or `+= count`. -/
inductive Move where
  | next
  | advance (count : Nat)
deriving DecidableEq, Repr

/-- How far a move goes. -/
def Move.length : Move → Nat
  | .next => 1
  | .advance count => count

/-- Make a move. -/
def Iterator.move (p : Payload) (it : Iterator) : Move → Except Fault Iterator
  | .next => it.next p
  | .advance count => it.advance p count

/-- A fresh iterator after some moves. -/
def Payload.iteratorAfter (p : Payload) (moves : List Move) : Except Fault Iterator := do
  let it ← Iterator.start p
  runM (Iterator.move p) it moves

/-- A payload decodes to a sequence of cells: by position, by an iterator that is
moved there in any way, and with segments in order that refer to stored values. -/
structure Decodes (p : Payload) (valuesCount : Nat) (cells : List Value) : Prop where
  count : p.count = .ok cells.length
  byPosition : ∀ (pos : Nat) (v : Value), cells[pos]? = some v →
    p.getValueByPosition pos = .ok (some v)
  byIterator : ∀ (moves : List Move) (v : Value), cells[(moves.map Move.length).sum]? = some v →
    ∃ it, p.iteratorAfter moves = .ok it ∧ it.getItem p = .ok v
  sorted : p.segs.Pairwise (fun s s' => s.pPosition < s'.pPosition)
  indexes : ∀ (i : Nat) (s s' : Segment), p.segs[i]? = some s → p.segs[i + 1]? = some s' →
    s.null = false → ∀ k : Nat, k < (if s.same then 1 else s'.pPosition - s.pPosition) →
    s.valueIndex + k < valuesCount ∧ ∃ d, p.getValueByIndex (s.valueIndex + k) = .ok (.datum d)

section

variable {p : Payload} {values : List Datum} {cells : List Value}

/-- Moves that do not pass the end arrive where they should. -/
theorem Holds.runM_move (h : Holds p values cells) (moves : List Move) {it : Iterator} {pos : Nat}
    (hat : it.At p cells pos) (hpos : pos + (moves.map Move.length).sum < cells.length) :
    ∃ it', runM (Iterator.move p) it moves = .ok it' ∧
      it'.At p cells (pos + (moves.map Move.length).sum) := by
  induction moves generalizing it pos with
  | nil => exact ⟨it, rfl, hat⟩
  | cons m moves ih =>
    rw [map_cons, sum_cons, ← Nat.add_assoc] at hpos ⊢
    have hstep : ∃ it', it.move p m = .ok it' ∧ it'.At p cells (pos + m.length) := by
      cases m with
      | next => exact next_at h hat (by omega)
      | advance count =>
        exact advance_at h hat (by omega) (by simp only [Move.length] at hpos; omega)
    rcases hstep with ⟨it', hmove, hat'⟩
    rcases ih hat' hpos with ⟨it'', hrun, hat''⟩
    refine ⟨it'', ?_, hat''⟩
    rw [runM, hmove]
    exact hrun

/-- A payload that holds cells decodes to them. -/
theorem Holds.decodes (h : Holds p values cells) : Decodes p values.length cells where
  count := h.count
  byPosition _ _ hv := h.getValueByPosition hv
  byIterator moves v hv := by
    rcases start_at h with ⟨it, hstart, hat⟩
    have hlt := (List.getElem?_eq_some_iff.mp hv).1
    rcases h.runM_move moves hat (by omega) with ⟨it', hrun, hat'⟩
    rw [Nat.zero_add] at hat'
    refine ⟨it', ?_, getItem_eq h hat' hv⟩
    rw [Payload.iteratorAfter, hstart]
    exact hrun
  sorted := h.sorted
  indexes i s s' hs hs' hnull k hk := by
    have hbounds := h.pPosition_bounds hs
    have hbounds' := h.pPosition_bounds hs'
    have hlt := h.pPosition_lt (Nat.lt_succ_self i) hs hs'
    have hi : i < p.nSegs := by
      have := (List.getElem?_eq_some_iff.mp hs').1
      rw [h.length_segs] at this
      omega
    -- the cell that the value is for
    have hpos : ∃ pos : Nat, Inside p i s s' pos ∧
        (if s.same then s.valueIndex else s.valueIndex + (pos - s.pPosition).toNat) =
          s.valueIndex + k := by
      split at hk
      · refine ⟨s.pPosition.toNat, ⟨hi, hs, hs', by omega, by omega⟩, ?_⟩
        rw [if_pos ‹_›]
        omega
      · refine ⟨s.pPosition.toNat + k, ⟨hi, hs, hs', by push_cast; omega, by push_cast; omega⟩, ?_⟩
        rw [if_neg ‹_›]
        omega
    rcases hpos with ⟨pos, hin, hindex⟩
    have hlt' := hin.lt_succ
    have hcell : cells[pos]? = some (cells.get ⟨pos, by omega⟩) := List.getElem?_eq_getElem _
    rcases Segment.cellAt_eq (h.cell hin hcell) with ⟨hnull', _⟩ | ⟨_, d, _, hd⟩
    · rw [hnull] at hnull'
      cases hnull'
    · rw [hindex] at hd
      exact ⟨(List.getElem?_eq_some_iff.mp hd).1, d, h.reads _ d hd⟩

end

/-! ## Sequences of calls -/

/-- A well-formed payload with what it holds. -/
structure Source where
  payload : Payload
  values : List Datum
  cells : List Value
  holds : Holds payload values cells

/-- A call of the appender.  The iterator of the second one stands at position
`pos` of its payload. -/
inductive Op where
  | add (v : Value) (n : Nat)
  | addFrom (src : Source) (ii : Iterator) (pos limit : Nat)

/-- The number of cells that `add(ii, limit)` takes. -/
def Source.taken (src : Source) (ii : Iterator) (limit : Nat) : Nat :=
  min limit ((ii.available src.payload).toOption.getD 0)

/-- The values that `add(ii, limit)` stores. -/
def Source.stored (src : Source) (ii : Iterator) (limit : Nat) : List Datum :=
  match ii.segment src.payload with
  | .ok s => newData src.values ii s (src.taken ii limit)
  | .error _ => []

namespace Op

/-- The cells that a call adds. -/
def cells : Op → List Value
  | .add v n => List.replicate n v
  | .addFrom src ii pos limit => (src.cells.drop pos).take (src.taken ii limit)

/-- The arguments a caller may give. -/
def Legal (kind : Kind) : Op → Prop
  | .add v n => kind.AdmitsValue v ∧ 0 < n
  | .addFrom src ii pos limit => src.payload.kind = kind ∧ ii.At src.payload src.cells pos ∧
      ¬ ii.atEnd src.payload ∧ 0 < limit

/-- Make a call. -/
def step (a : Appender) : Op → Except Fault Appender
  | .add v n => a.add v n
  | .addFrom src ii _ limit => do
      let (a, _, _) ← a.addFrom src.payload ii limit true
      return a

/-- There is room for what a call adds: positions have 63 bits, value indexes 30
and offsets in the variable part 32. -/
def Room (a : Appender) : Op → Prop
  | .add v n => a.segm.pPosition + a.segLength + n < 2 ^ 63 ∧ a.HasRoom v
  | .addFrom src ii _ limit =>
    a.segm.pPosition + a.segLength + src.taken ii limit < 2 ^ 63 ∧
      a.valueIndex + (src.stored ii limit).length ≤ 2 ^ 30 ∧
      (a.kind = .varying →
        a.varPart.length + (varBytes (src.stored ii limit).dropLast).length < 2 ^ 32)

instance (a : Appender) : (op : Op) → Decidable (op.Room a)
  | .add (.null _) _ => inferInstanceAs (Decidable (_ ∧ True))
  | .add (.datum _) _ => inferInstanceAs (Decidable (_ ∧ (_ ∨ _)))
  | .addFrom _ _ _ _ => inferInstanceAs (Decidable (_ ∧ _ ∧ _))

end Op

section

variable {a : Appender} {values : List Datum} {done cur : List Value}

/-- A call appends its cells. -/
theorem Appending.step (h : Appending a values done cur) {op : Op} (hlegal : op.Legal a.kind)
    (hroom : op.Room a) :
    ∃ a' values' done' cur', op.step a = .ok a' ∧ Appending a' values' done' cur' ∧
      done' ++ cur' = done ++ cur ++ op.cells ∧ a'.kind = a.kind := by
  have hposition := h.position
  have hlength := h.length
  cases op with
  | add v n => exact h.add hlegal.1 hlegal.2 (by have := hroom.1; omega) hroom.2
  | addFrom src ii pos limit =>
    rcases hlegal with ⟨hkind, hat, hend, hlimit⟩
    rcases hroom with ⟨hfew, hvalues, hvar⟩
    rcases hat with ⟨s, s', hin, hcurr⟩ | ⟨hat, _⟩
    · have havail := available_eq src.holds hin hcurr
      have htaken : src.taken ii limit = min limit (s'.pPosition - pos).toNat := by
        rw [Source.taken, havail]
        rfl
      have hstored : src.stored ii limit = newData src.values ii s (src.taken ii limit) := by
        rw [Source.stored, segment_eq hin]
      rw [hstored] at hvalues hvar
      rcases h.addFrom src.holds hkind hin hcurr hlimit havail htaken (by omega) hvalues hvar with
        ⟨a', values', done', cur', ii', hadd, hinv, heq, hkind', _⟩
      refine ⟨a', values', done', cur', ?_, hinv, heq, hkind'⟩
      rw [Op.step, hadd]
      rfl
    · exact absurd hat hend

/-- A sequence of calls appends all their cells. -/
theorem Appending.steps (ops : List Op) (h : Appending a values done cur)
    (hlegal : ∀ op ∈ ops, op.Legal a.kind) (hroom : Along Op.step Op.Room a ops) :
    ∃ a' values' done' cur', runM Op.step a ops = .ok a' ∧
      Appending a' values' done' cur' ∧ done' ++ cur' = done ++ cur ++ ops.flatMap Op.cells := by
  induction ops generalizing a values done cur with
  | nil => exact ⟨a, values, done, cur, rfl, h, by simp⟩
  | cons op ops ih =>
    rcases h.step (hlegal op mem_cons_self) hroom.1 with
      ⟨a₁, values₁, done₁, cur₁, hstep, hinv, heq, hkind⟩
    rcases ih hinv (fun op' hop' => hkind ▸ hlegal op' (mem_cons_of_mem op hop'))
      (hroom.2 a₁ hstep) with ⟨a', values', done', cur', hrun, hinv', heq'⟩
    refine ⟨a', values', done', cur', ?_, hinv', ?_⟩
    · rw [runM, hstep]
      exact hrun
    · rw [heq', heq, flatMap_cons, append_assoc]

end

/-- Appending and decoding: any sequence of calls for which there is room succeeds,
and the finished payload decodes to the cells of all calls. -/
theorem append_decodes (kind : Kind) (ops : List Op) (hlegal : ∀ op ∈ ops, op.Legal kind)
    (hroom : Along Op.step Op.Room (Appender.start kind) ops) :
    ∃ a p, runM Op.step (Appender.start kind) ops = .ok a ∧ a.flush = .ok p ∧
      Decodes p a.valueIndex (ops.flatMap Op.cells) := by
  rcases (Appending.start kind).steps ops hlegal hroom with
    ⟨a, values, done, cur, hrun, hinv, heq⟩
  rcases hinv.flush with ⟨p, hflush, hholds⟩
  refine ⟨a, p, hrun, hflush, ?_⟩
  rw [heq] at hholds
  rw [hinv.index]
  exact hholds.decodes

/-- A payload of one literal with two values. -/
def twoBytes : Source where
  payload := ⟨.fixed 1 (by decide), [⟨0, 0, false, false⟩, ⟨2, 0, false, false⟩], 1, [7, 8], 0⟩
  values := [[7], [8]]
  cells := [.datum [7], .datum [8]]
  holds := by
    constructor
    · decide
    · decide
    · decide
    · intro i d hd
      match i, hd with
      | 0, rfl => rfl
      | 1, rfl => rfl
    · refine ⟨[⟨0, 0, false, false⟩], ⟨2, 0, false, false⟩, rfl, rfl, ?_, rfl⟩
      apply Covers.nil.snoc rfl (by simp)
      intro k v hv
      match k, hv with
      | 0, rfl => rfl
      | 1, rfl => rfl

/-- A literal that ends with the value of a run, with nulls behind it. -/
theorem append_decodes_literalThenRun :
    ∃ a p, runM Op.step (Appender.start (.fixed 1 (by decide)))
        [.addFrom twoBytes ⟨0, 0⟩ 0 5, .add (.datum [8]) 2, .add (.null 3) 1] = .ok a ∧
      a.flush = .ok p ∧
      Decodes p a.valueIndex [.datum [7], .datum [8], .datum [8], .datum [8], .null 3] := by
  refine append_decodes _ [.addFrom twoBytes ⟨0, 0⟩ 0 5, .add (.datum [8]) 2, .add (.null 3) 1]
    ?_ (by decide +kernel)
  intro op hop
  simp only [mem_cons, not_mem_nil, or_false] at hop
  rcases hop with rfl | rfl | rfl
  · refine ⟨rfl, Or.inl ⟨_, _, ⟨?_, rfl, rfl, ?_, ?_⟩, rfl⟩, ?_, ?_⟩ <;> decide
  · exact ⟨rfl, by decide⟩
  · exact ⟨trivial, by decide⟩

/-! ## The limit on the number of values -/

/-- Nulls and values in turns, so that every value is stored. -/
def turns : Nat → List Op
  | 0 => []
  | n + 1 => turns n ++ [.add (.null 0) 1] ++ [.add (.datum [0]) 1]

/-- A value behind nulls needs a new segment with the next value index. -/
theorem Appending.add_afterNulls {done cur : List Value}
    (h : Appending a values done cur) (hnull : a.segm.null = true) (d : Datum) :
    ∃ b, Appending b values (done ++ cur) [] ∧ b.kind = a.kind ∧ b.varPart = a.varPart ∧
      a.add (.datum d) 1 = (do
        let segm ← { b.segm with same := true, null := false }.setValueIndex b.valueIndex
        let a ← ({ b with segm := segm }.lengthen 1).store d
        return { a with prevVal := .datum d }) := by
  rcases h.ready with ⟨b, hb, hinv, hkind, hvarPart⟩
  refine ⟨b, hinv, hkind, hvarPart, ?_⟩
  rw [Appender.add, if_neg (by simp [hnull]), if_pos (by simp [hnull]), hb]
  simp only [bind, Except.bind]
  cases Segment.setValueIndex { b.segm with same := true, null := false } b.valueIndex <;> rfl

/-- After `n` turns `n` values are stored. -/
theorem turns_state {n : Nat} (hn : n ≤ 2 ^ 30) :
    ∃ a values done cur, runM Op.step (Appender.start (.fixed 1 (by decide)))
        (turns n) = .ok a ∧
      Appending a values done cur ∧ values.length = n ∧ done.length + cur.length = 2 * n ∧
      a.kind = .fixed 1 (by decide) := by
  induction n with
  | zero => exact ⟨_, [], [], [], rfl, Appending.start _, rfl, rfl, rfl⟩
  | succ n ih =>
    rcases ih (by omega) with ⟨a, values, done, cur, hrun, hinv, hvalues, hcells, hkind⟩
    rcases hinv.addNull 0 (show done.length + cur.length + 1 < 2 ^ 63 by omega) with
      ⟨a₁, done₁, cur₁, hadd, hinv₁, heq, hkind₁, hnull⟩
    have hlen : done₁.length + cur₁.length = 2 * n + 1 := by
      rw [← length_append, heq]
      simp only [length_append, length_replicate]
      omega
    rcases hinv₁.add_afterNulls hnull [0] with ⟨b, hinvb, hkindb, _, haddb⟩
    have hadmits : b.kind.Admits [0] := by
      rw [hkindb, hkind₁, hkind]
      rfl
    have hfixed : b.kind = .varying → b.varPart.length < 2 ^ 32 := by
      rw [hkindb, hkind₁, hkind]
      exact fun hk => absurd hk (by simp)
    rcases hinvb.startRun hadmits (show (done₁ ++ cur₁).length + 1 < 2 ^ 63 by
      rw [length_append]
      omega) (by omega) hfixed rfl with ⟨a', ha', hinv', hkind'⟩
    refine ⟨a', _, _, _, ?_, hinv', by simp [hvalues], ?_, ?_⟩
    · have hrun₁ : runM Op.step (Appender.start (.fixed 1 (by decide)))
          (turns n ++ [.add (.null 0) 1]) = .ok a₁ := by
        rw [runM_concat hrun]
        exact hadd
      rw [turns, runM_concat hrun₁, Op.step, haddb,
        Appending.setValueIndex_eq (show b.valueIndex < 2 ^ 30 by rw [hinvb.index]; omega)]
      exact ha'
    · simp only [length_append, length_replicate]
      omega
    · rw [hkind', hkindb, hkind₁, hkind]

/-- The value index has 30 bits: the appender refuses the value with index `2 ^ 30`. -/
theorem append_tooPopulated :
    (∀ op ∈ turns (2 ^ 30 + 1), op.Legal (.fixed 1 (by decide))) ∧
      runM Op.step (Appender.start (.fixed 1 (by decide))) (turns (2 ^ 30 + 1)) =
        .error (.chunkTooPopulated (2 ^ 30) (2 ^ 30 - 1)) := by
  constructor
  · generalize 2 ^ 30 + 1 = n
    induction n with
    | zero => simp [turns]
    | succ n ih =>
      intro op hop
      rw [turns, mem_append, mem_append, mem_singleton, mem_singleton] at hop
      rcases hop with (hop | rfl) | rfl
      · exact ih op hop
      · exact ⟨trivial, by decide⟩
      · exact ⟨rfl, by decide⟩
  · rcases turns_state le_rfl with ⟨a, values, done, cur, hrun, hinv, hvalues, hcells, _⟩
    rcases hinv.addNull 0 (show done.length + cur.length + 1 < 2 ^ 63 by omega) with
      ⟨a₁, done₁, cur₁, hadd, hinv₁, _, _, hnull⟩
    rcases hinv₁.add_afterNulls hnull [0] with ⟨b, hinvb, _, _, haddb⟩
    have hrun₁ : runM Op.step (Appender.start (.fixed 1 (by decide)))
        (turns (2 ^ 30) ++ [.add (.null 0) 1]) = .ok a₁ := by
      rw [runM_concat hrun]
      exact hadd
    rw [turns, runM_concat hrun₁, Op.step, haddb, hinvb.index, hvalues]
    rfl

end SciDB.Rle
