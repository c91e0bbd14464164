import SciDB.Distribution.Positions
import SciDB.Lib.Checked
import SciDB.Lib.Collapse
import SciDB.Lib.OrderedMap

/-!
# The uniq operator

`PhysicalUniq` (`src/query/ops/uniq/PhysicalUniq.cpp`) collapses the runs of a
one-dimensional array whose chunks are spread over instances.  A first pass summarises
each chunk, the summaries are exchanged, every instance computes from them where the
values of each chunk go, and a second pass over the chunks writes them.

Main results:

- Theorem {lit}`inputChunkInfo_eq`: what the summary of a chunk says about its values.
- Theorem {lit}`exchangeArrayInfo_spec`: all instances compute the same places.
-/

namespace SciDB.Operators.Uniq

open SciDB.Distribution OrderedMap Collapse OrdMap
open List hiding lookup_cons_self

/-- A value: missing for a reason, or its bytes. -/
inductive Value (α : Type) where
  | null (reason : Nat)
  | data (x : α)
deriving DecidableEq, Repr

namespace Value

variable {α : Type}

def isNull : Value α → Bool
  | null _ => true
  | data _ => false

/-- What a value holds. -/
def datum : Value α → Option α
  | null _ => none
  | data x => some x

end Value

inductive Fault where
  /-- a failed `EXCEPTION_ASSERT` -/
  | inconsistency
  /-- `newChunk` at the position of a chunk that exists -/
  | chunkExists
  /-- a position behind the end of the output dimension -/
  | outOfBounds
deriving DecidableEq, Repr

/-! ## The input -/

/-- The input of the operator.  The array is given as a whole; each chunk is on one of the
instances, and its cells are those outside of the overlap. -/
structure Input (α : Type) where
  dim : DimensionDesc
  startMin_eq : dim.startMin = 0
  chunks : OrdMap Int (OrdMap Int (Value α))
  cells_in : ∀ c ∈ chunks.entries, ∀ e ∈ c.2.entries,
    0 ≤ e.1 ∧ e.1 ≤ dim.endMax ∧ getChunkPosition dim e.1 = c.1
  nInstances : Nat
  instanceOf : Int → Fin nInstances
  chunkSize : Int
  chunkSize_pos : 0 < chunkSize
  chunkSize_lt : chunkSize < 2 ^ 63

namespace Input

variable {α : Type} (I : Input α)

/-- The dimension of the output, which has no upper bound. -/
def outputDim : DimensionDesc :=
  .ofBounds 0 (2 ^ 62 - 1) I.chunkSize
    ⟨by decide, by decide, by decide, I.chunkSize_pos, I.chunkSize_lt⟩

/-- The chunks that an instance has. -/
def onInstance (i : Fin I.nInstances) : OrdMap Int (OrdMap Int (Value α)) :=
  I.chunks.filter fun pos => I.instanceOf pos = i

end Input

/-- The values of a chunk in the order of their coordinates. -/
def cellValues {α : Type} (chunk : OrdMap Int (Value α)) : List (Value α) :=
  chunk.entries.map Prod.snd

/-! ## Summaries -/

variable {α β : Type} [DecidableEq α] {l : List (Int × β)}

structure InputChunkInfo (α : Type) where
  numUniqueElements : Nat := 0
  startingValue : Value α := .null 0
  endingValue : Value α := .null 0

structure OutputChunkInfo where
  startingPosition : Int := -1
  writeFirstValue : Bool := true

/-- One value of the scan in `fillInputArrayInfo`. -/
def InputChunkInfo.scan (info : InputChunkInfo α) (val : Value α) : InputChunkInfo α :=
  if val.isNull then info
  else if info.startingValue.isNull then
    { numUniqueElements := info.numUniqueElements + 1, startingValue := val, endingValue := val }
  else if info.endingValue ≠ val then
    { info with numUniqueElements := info.numUniqueElements + 1, endingValue := val }
  else info

def inputChunkInfo (cells : List (Value α)) : InputChunkInfo α :=
  cells.foldl InputChunkInfo.scan {}

/-- `MarshallableMap::addElement`, which keeps the element that is there. -/
def addElement {β : Type} (info : OrdMap Int β) (pos : Int) (x : β) : OrdMap Int β :=
  if (info.get pos).isSome then info else info.insert pos x

def fillInputArrayInfo (chunks : OrdMap Int (OrdMap Int (Value α))) :
    OrdMap Int (InputChunkInfo α) :=
  chunks.entries.foldl (fun info c => addElement info c.1 (inputChunkInfo (cellValues c.2)))
    OrdMap.empty

/-- `MarshallableMap::unMarshall` of the elements that another instance sent. -/
def unMarshall {β : Type} : List (Int × β) → OrdMap Int β → Except Fault (OrdMap Int β)
  | [], info => .ok info
  | e :: es, info =>
    if (info.get e.1).isSome then .error .inconsistency
    else unMarshall es (addElement info e.1 e.2)

/-- One chunk of `computeOutputArrayInfo`: where its values go, the last value from there
on, and the next position. -/
def placeChunk (info : InputChunkInfo α) (lastVal : Value α) (nextPosition : Int) :
    OutputChunkInfo × Value α × Int :=
  if info.numUniqueElements = 0 ∨ (lastVal = info.startingValue ∧ info.numUniqueElements = 1) then
    ({ startingPosition := -1 }, lastVal, nextPosition)
  else if lastVal = info.startingValue then
    ({ startingPosition := nextPosition, writeFirstValue := false }, info.endingValue,
      nextPosition + (info.numUniqueElements - 1))
  else
    ({ startingPosition := nextPosition }, info.endingValue, nextPosition + info.numUniqueElements)

def computeLoop : List (Int × InputChunkInfo α) → Value α → Int → OrdMap Int OutputChunkInfo →
    OrdMap Int OutputChunkInfo
  | [], _, _, output => output
  | e :: es, lastVal, nextPosition, output =>
    let (info, lastVal, nextPosition) := placeChunk e.2 lastVal nextPosition
    computeLoop es lastVal nextPosition (addElement output e.1 info)

def computeOutputArrayInfo (info : OrdMap Int (InputChunkInfo α)) : OrdMap Int OutputChunkInfo :=
  computeLoop info.entries (.null 0) 0 OrdMap.empty

namespace Input

variable (I : Input α)

/-- The summaries that arrive from some instances, in this order. -/
def receive (me : Fin I.nInstances) : List (Fin I.nInstances) → OrdMap Int (InputChunkInfo α) →
    Except Fault (OrdMap Int (InputChunkInfo α))
  | [], info => .ok info
  | i :: instances, info =>
    if i = me then receive me instances info
    else do
      let info ← unMarshall (fillInputArrayInfo (I.onInstance i)).entries info
      receive me instances info

def exchangeArrayInfo (me : Fin I.nInstances) : Except Fault (OrdMap Int OutputChunkInfo) := do
  let info ← I.receive me (List.finRange I.nInstances) (fillInputArrayInfo (I.onInstance me))
  .ok (computeOutputArrayInfo info)

end Input

/-! ## Writing -/

/-- `OutputArraySequentialWriter`.  The chunk that is open is the last of `chunks`. -/
structure Writer (α : Type) where
  outputChunkPosition : Int := -1
  outputCellPosition : Int := -1
  chunks : List (Int × List (Int × Value α)) := []

namespace Writer

/-- The cells that were written. -/
def cells (w : Writer α) : List (Int × Value α) :=
  w.chunks.flatMap Prod.snd

/-- Add a cell to the last chunk. -/
def addCell (cell : Int × Value α) : List (Int × List (Int × Value α)) →
    List (Int × List (Int × Value α))
  | [] => []
  | [c] => [(c.1, c.2 ++ [cell])]
  | c :: c' :: cs => c :: addCell cell (c' :: cs)

def writeValue (dim : DimensionDesc) (w : Writer α) (position : Int) (value : Value α) :
    Except Fault (Writer α) :=
  if ¬(position > w.outputCellPosition ∧ ¬value.isNull) then .error .inconsistency
  else if position > dim.endMax then .error .outOfBounds
  else
    let chunkPosition := getChunkPosition dim position
    if chunkPosition ≠ w.outputChunkPosition then
      if chunkPosition ∈ w.chunks.map Prod.fst then .error .chunkExists
      else .ok
        { outputChunkPosition := chunkPosition
          outputCellPosition := position
          chunks := w.chunks ++ [(chunkPosition, [(position, value)])] }
    else .ok { w with outputCellPosition := position, chunks := addCell (position, value) w.chunks }

end Writer

/-- The loop of `writeOutputArray` over the values of a chunk. -/
def writeCells (dim : DimensionDesc) (writeFirstValue : Bool) : List (Value α) → Value α → Int →
    Writer α → Except Fault (Writer α)
  | [], _, _, w => .ok w
  | inputValue :: cells, lastVal, currentOutputPos, w =>
    if lastVal ≠ inputValue then
      if writeFirstValue ∨ ¬lastVal.isNull then do
        let w ← w.writeValue dim currentOutputPos inputValue
        writeCells dim writeFirstValue cells inputValue (currentOutputPos + 1) w
      else writeCells dim writeFirstValue cells inputValue currentOutputPos w
    else writeCells dim writeFirstValue cells lastVal currentOutputPos w

/-- The loop of `writeOutputArray` over the chunks. -/
def writeChunks (dim : DimensionDesc) (output : OrdMap Int OutputChunkInfo) :
    List (Int × OrdMap Int (Value α)) → Writer α → Except Fault (Writer α)
  | [], w => .ok w
  | c :: chunks, w =>
    match output.get c.1 with
    | none => .error .inconsistency
    | some info =>
      if info.startingPosition < 0 then writeChunks dim output chunks w
      else do
        let w ← writeCells dim info.writeFirstValue (cellValues c.2) (.null 0)
          info.startingPosition w
        writeChunks dim output chunks w

namespace Input

variable (I : Input α)

/-- The output chunks of an instance. -/
def execute (me : Fin I.nInstances) : Except Fault (List (Int × List (Int × Value α))) := do
  let output ← I.exchangeArrayInfo me
  let w ← writeChunks I.outputDim output (I.onInstance me).entries {}
  .ok w.chunks

/-! ## What it should compute -/

/-- The values of some chunks that are not missing. -/
def valuesOf (chunks : List (Int × OrdMap Int (Value α))) : List α :=
  chunks.flatMap fun c => (cellValues c.2).filterMap Value.datum

/-- The values of the array with each run collapsed. -/
def expected : List α :=
  (valuesOf I.chunks.entries).destutter (· ≠ ·)

/-- All instances succeed.  Each cell is in the chunk of its position, and together the
cells are the collapsed values at the positions from 0 on. -/
def Exact : Prop :=
  ∃ out : Fin I.nInstances → List (Int × List (Int × Value α)),
    (∀ i, I.execute i = .ok (out i)) ∧
    (∀ i, ∀ c ∈ out i, ∀ e ∈ c.2, getChunkPosition I.outputDim e.1 = c.1) ∧
    ((List.finRange I.nInstances).flatMap fun i => (out i).flatMap Prod.snd).Perm
      (I.expected.zipIdx.map fun x => ((x.2 : Int), Value.data x.1))

end Input

/-! ## What the summaries say -/

/-- The value that stands for the last or the first one of a list. -/
def ofOption : Option α → Value α
  | none => .null 0
  | some x => .data x

omit [DecidableEq α] in
theorem ofOption_inj {x y : Option α} : ofOption x = ofOption y ↔ x = y := by
  cases x <;> cases y <;> simp [ofOption]

/-- The summary of a list of values. -/
def summary (values : List α) : InputChunkInfo α where
  numUniqueElements := (fresh none values).length
  startingValue := ofOption values.head?
  endingValue := ofOption values.getLast?

/-- The values of a list of cells. -/
abbrev data (cells : List (Value α)) : List α :=
  cells.filterMap Value.datum

omit [DecidableEq α] in
theorem latest_none (values : List α) : latest none values = values.getLast? := by
  rw [latest, Option.or_none]

theorem scan_summary (values : List α) (x : α) :
    (summary values).scan (.data x) = summary (values ++ [x]) := by
  rw [InputChunkInfo.scan, if_neg (by simp [Value.isNull])]
  have hfresh : fresh none (values ++ [x]) = fresh none values ++ fresh values.getLast? [x] := by
    rw [fresh_append, latest_none]
  cases hv : values with
  | nil =>
    rfl
  | cons y ys =>
    rw [← hv]
    have hstart : (summary values).startingValue.isNull = false := by
      rw [hv]
      rfl
    have hhead : (values ++ [x]).head? = values.head? := by
      rw [hv]
      rfl
    rw [if_neg (by simp [hstart])]
    by_cases hlast : values.getLast? = some x
    · have hend : (summary values).endingValue = .data x := by
        rw [summary, hlast]
        rfl
      rw [if_neg (not_not.mpr hend)]
      rw [summary, summary, hfresh, hhead, hlast, getLast?_concat, fresh, if_pos rfl, fresh,
        append_nil]
    · have hend : (summary values).endingValue ≠ .data x := by
        intro h
        exact hlast (ofOption_inj.mp h)
      rw [if_pos hend]
      rw [summary, summary, hfresh, hhead, getLast?_concat, fresh, if_neg hlast, length_append]
      rfl

/-- The summary of a chunk is that of its values. -/
theorem inputChunkInfo_eq (cells : List (Value α)) :
    inputChunkInfo cells = summary (data cells) := by
  induction cells using List.reverseRecOn with
  | nil => rfl
  | append_singleton cells v ih =>
    have hdata : data (cells ++ [v]) = data cells ++ data [v] := filterMap_append
    rw [inputChunkInfo, foldl_append, ← inputChunkInfo, ih, hdata]
    cases v with
    | null reason => exact congrArg summary (append_nil _).symm
    | data x => exact scan_summary _ x

theorem get_addElement (info : OrdMap Int β) (pos : Int) (x : β) (k : Int) :
    (addElement info pos x).get k = (info.get k).or (if k = pos then some x else none) := by
  rw [addElement]
  by_cases hk : k = pos
  · subst hk
    cases hget : info.get k with
    | some y => simp [hget]
    | none => simp [get_insert]
  · rw [if_neg hk, Option.or_none]
    split
    · rfl
    · rw [get_insert, if_neg hk]

theorem get_foldl_addElement {γ : Type} (f : β → γ) (info : OrdMap Int γ)
    (k : Int) : (l.foldl (fun info c => addElement info c.1 (f c.2)) info).get k =
      (info.get k).or ((l.lookup k).map f) := by
  induction l generalizing info with
  | nil => exact (Option.or_none).symm
  | cons c l ih =>
    rw [foldl_cons, ih, get_addElement]
    by_cases hk : k = c.1
    · subst hk
      rw [if_pos rfl, lookup_cons_self]
      cases info.get c.1 <;> rfl
    · rw [if_neg hk, Option.or_none, lookup_cons_of_ne hk]

theorem get_fillInputArrayInfo (chunks : OrdMap Int (OrdMap Int (Value α))) (k : Int) :
    (fillInputArrayInfo chunks).get k =
      (chunks.get k).map fun chunk => summary (data (cellValues chunk)) := by
  rw [fillInputArrayInfo, get_foldl_addElement fun chunk => inputChunkInfo (cellValues chunk),
    get_empty, Option.none_or, OrdMap.get]
  simp [inputChunkInfo_eq]

/-- The elements of another instance are added if none of them is there. -/
theorem unMarshall_spec (hsorted : Sorted l) {info : OrdMap Int β}
    (hnew : ∀ e ∈ l, info.get e.1 = none) :
    ∃ info', unMarshall l info = .ok info' ∧ ∀ k, info'.get k = (info.get k).or (l.lookup k) := by
  induction l generalizing info with
  | nil => exact ⟨info, rfl, fun k => (Option.or_none).symm⟩
  | cons e l ih =>
    rw [Sorted, pairwise_cons] at hsorted
    rw [unMarshall, if_neg (by simp [hnew e mem_cons_self])]
    have hadd : ∀ k, (addElement info e.1 e.2).get k =
        (info.get k).or (if k = e.1 then some e.2 else none) := get_addElement info e.1 e.2
    have hrest : ∀ e' ∈ l, (addElement info e.1 e.2).get e'.1 = none := by
      intro e' he'
      rw [hadd, hnew e' (mem_cons_of_mem e he'), if_neg (hsorted.1 e' he').ne']
      rfl
    rcases ih hsorted.2 hrest with ⟨info', hrun, hget⟩
    refine ⟨info', hrun, ?_⟩
    intro k
    rw [hget, hadd]
    by_cases hk : k = e.1
    · subst hk
      rw [if_pos rfl, lookup_cons_self, hnew e mem_cons_self]
      rfl
    · rw [if_neg hk, Option.or_none, lookup_cons_of_ne hk]

namespace Input

variable {I : Input α} {me : Fin I.nInstances} {last : Option α} {values : List α}
  {front rest : List (Int × OrdMap Int (Value α))}

/-- The summaries of the chunks on some instances. -/
def Knows (I : Input α) (p : Fin I.nInstances → Prop) (info : OrdMap Int (InputChunkInfo α)) :
    Prop :=
  ∀ pos, (p (I.instanceOf pos) → info.get pos =
      (I.chunks.get pos).map fun chunk => summary (data (cellValues chunk))) ∧
    (¬p (I.instanceOf pos) → info.get pos = none)

omit [DecidableEq α] in
theorem get_onInstance (i : Fin I.nInstances) (pos : Int) :
    (I.onInstance i).get pos = if I.instanceOf pos = i then I.chunks.get pos else none := by
  rw [onInstance, get_filter]
  simp

theorem receive_spec {instances : List (Fin I.nInstances)} (hnodup : instances.Nodup)
    {p : Fin I.nInstances → Prop} {info : OrdMap Int (InputChunkInfo α)} (hinfo : I.Knows p info)
    (hme : p me) (hnew : ∀ i ∈ instances, i ≠ me → ¬p i) :
    ∃ info', I.receive me instances info = .ok info' ∧
      I.Knows (fun i => p i ∨ i ∈ instances) info' := by
  induction instances generalizing p info with
  | nil => exact ⟨info, rfl, by simpa using hinfo⟩
  | cons i instances ih =>
    rw [nodup_cons] at hnodup
    rw [receive]
    -- after the summaries of the first instance, if it is not this one
    have hrest : ∀ info', I.Knows (fun j => p j ∨ j = i) info' →
        ∃ info'', I.receive me instances info' = .ok info'' ∧
          I.Knows (fun j => p j ∨ j ∈ i :: instances) info'' := by
      intro info' hinfo'
      have hnew' : ∀ j ∈ instances, j ≠ me → ¬(p j ∨ j = i) := by
        rintro j hj hne (hp | rfl)
        · exact hnew j (mem_cons_of_mem i hj) hne hp
        · exact hnodup.1 hj
      rcases ih hnodup.2 hinfo' (.inl hme) hnew' with ⟨info'', hrun, hknows⟩
      refine ⟨info'', hrun, ?_⟩
      have heq : (fun j => (p j ∨ j = i) ∨ j ∈ instances) = fun j => p j ∨ j ∈ i :: instances := by
        funext j
        rw [mem_cons, or_assoc]
      rwa [heq] at hknows
    by_cases hi : i = me
    · rw [if_pos hi]
      refine hrest info ?_
      have heq : (fun j => p j ∨ j = i) = p := by
        funext j
        apply propext
        constructor
        · rintro (hp | rfl)
          · exact hp
          · exact hi ▸ hme
        · exact .inl
      rwa [heq]
    · rw [if_neg hi]
      have hpi := hnew i mem_cons_self hi
      have hsent : ∀ pos, (fillInputArrayInfo (I.onInstance i)).get pos =
          if I.instanceOf pos = i then
            (I.chunks.get pos).map fun chunk => summary (data (cellValues chunk))
          else none := by
        intro pos
        rw [get_fillInputArrayInfo, get_onInstance]
        split <;> rfl
      have habsent : ∀ e ∈ (fillInputArrayInfo (I.onInstance i)).entries, info.get e.1 = none := by
        intro e he
        have hget := hsent e.1
        rw [mem_entries.mp he] at hget
        by_cases hinst : I.instanceOf e.1 = i
        · exact (hinfo e.1).2 (hinst ▸ hpi)
        · rw [if_neg hinst] at hget
          cases hget
      rcases unMarshall_spec (fillInputArrayInfo (I.onInstance i)).sorted habsent with
        ⟨info', hrun, hget⟩
      rw [hrun]
      refine hrest info' ?_
      intro pos
      have hpos : info'.get pos = (info.get pos).or
          ((fillInputArrayInfo (I.onInstance i)).get pos) := hget pos
      rw [hpos, hsent]
      by_cases hinst : I.instanceOf pos = i
      · rw [if_pos hinst, (hinfo pos).2 (hinst ▸ hpi)]
        exact ⟨fun _ => Option.none_or, fun hnot => absurd (.inr hinst) hnot⟩
      · rw [if_neg hinst, Option.or_none]
        refine ⟨fun h => (hinfo pos).1 (h.resolve_right hinst), fun h => (hinfo pos).2 ?_⟩
        exact fun hp => h (.inl hp)

/-- The values of the chunks before a position. -/
def valuesBefore (I : Input α) (pos : Int) : List α :=
  valuesOf (I.chunks.entries.filter fun c => c.1 < pos)

/-- Where the values of a chunk belong. -/
def placeOf (before values : List α) : OutputChunkInfo :=
  if fresh before.getLast? values = [] then { startingPosition := -1 }
  else
    { startingPosition := (fresh none before).length
      writeFirstValue := decide (before.getLast? ≠ values.head?) }

theorem length_fresh_of_repeat (h : last = values.head?) :
    (fresh last values).length = (fresh none values).length - 1 := by
  rw [fresh_eq, if_pos h, length_tail]

theorem fresh_eq_nil_iff :
    fresh last values = [] ↔ (fresh none values).length = 0 ∨
      (last = values.head? ∧ (fresh none values).length = 1) := by
  rw [fresh_eq]
  by_cases h : last = values.head?
  · rw [if_pos h, eq_nil_iff_length_eq_zero, length_tail]
    constructor
    · intro hlen
      rcases Nat.eq_zero_or_pos (fresh none values).length with hzero | hpos
      · exact .inl hzero
      · exact .inr ⟨h, by omega⟩
    · rintro (hlen | ⟨-, hlen⟩) <;> omega
  · rw [if_neg h, eq_nil_iff_length_eq_zero]
    constructor
    · exact .inl
    · rintro (hlen | ⟨heq, -⟩)
      · exact hlen
      · exact absurd heq h

/-- One chunk of the computation. -/
theorem placeChunk_eq (before values : List α) :
    placeChunk (summary values) (ofOption before.getLast?) ((fresh none before).length : Int) =
      (placeOf before values, ofOption (before ++ values).getLast?,
        ((fresh none (before ++ values)).length : Int)) := by
  have hcount : (fresh none (before ++ values)).length =
      (fresh none before).length + (fresh before.getLast? values).length := by
    rw [fresh_append, length_append, latest_none]
  rw [placeChunk, placeOf]
  simp only [summary, ofOption_inj]
  by_cases hnil : fresh before.getLast? values = []
  · rw [if_pos (fresh_eq_nil_iff.mp hnil), if_pos hnil, hcount, hnil]
    have hlast : (before ++ values).getLast? = before.getLast? := by
      rw [getLast?_append]
      exact latest_of_fresh_eq_nil hnil
    rw [hlast]
    rfl
  · have hnot := mt fresh_eq_nil_iff.mpr hnil
    have hne : values ≠ [] := by
      rintro rfl
      exact hnil rfl
    have hlast : (before ++ values).getLast? = values.getLast? := by
      rw [getLast?_append, getLast?_eq_some_getLast hne, Option.some_or]
    rw [if_neg hnot, if_neg hnil, hcount, hlast]
    by_cases hhead : before.getLast? = values.head?
    · rw [length_fresh_of_repeat hhead]
      simp [hhead]
      omega
    · have hfresh : fresh before.getLast? values = fresh none values := by
        rw [fresh_eq, if_neg hhead]
      rw [if_neg hhead, hfresh]
      simp [hhead]

omit [DecidableEq α] in
theorem valuesOf_append (cs cs' : List (Int × OrdMap Int (Value α))) :
    valuesOf (cs ++ cs') = valuesOf cs ++ valuesOf cs' :=
  flatMap_append

omit [DecidableEq α] in
theorem valuesOf_cons (c : Int × OrdMap Int (Value α)) (cs : List (Int × OrdMap Int (Value α))) :
    valuesOf (c :: cs) = data (cellValues c.2) ++ valuesOf cs :=
  flatMap_cons

omit [DecidableEq α] in
/-- The chunks before one of them. -/
theorem valuesBefore_eq {c : Int × OrdMap Int (Value α)}
    (h : I.chunks.entries = front ++ c :: rest) :
    I.valuesBefore c.1 = valuesOf front := by
  have hsorted := I.chunks.sorted
  rw [h, Sorted, pairwise_append, pairwise_cons] at hsorted
  rw [valuesBefore, h, filter_append, filter_eq_self.mpr, filter_eq_nil_iff.mpr, append_nil]
  · intro e he
    rcases mem_cons.mp he with rfl | he
    · simp
    · have := hsorted.2.1.1 e he
      simp only [decide_eq_true_eq, not_lt]
      exact this.le
  · intro e he
    simpa using hsorted.2.2 e he c mem_cons_self

/-- The place of a chunk in the output. -/
def place (I : Input α) (c : Int × OrdMap Int (Value α)) : OutputChunkInfo :=
  placeOf (I.valuesBefore c.1) (data (cellValues c.2))

theorem computeLoop_spec (h : I.chunks.entries = front ++ rest)
    {output : OrdMap Int OutputChunkInfo} (hfront : ∀ c ∈ front, output.get c.1 = some (I.place c))
    (hrest : ∀ c ∈ rest, output.get c.1 = none) :
    ∀ c ∈ I.chunks.entries, (computeLoop
      (rest.map fun c => (c.1, summary (data (cellValues c.2))))
      (ofOption (valuesOf front).getLast?) ((fresh none (valuesOf front)).length : Int)
      output).get c.1 = some (I.place c) := by
  induction rest generalizing front output with
  | nil =>
    rw [append_nil] at h
    rwa [h]
  | cons c rest ih =>
    have hbefore := valuesBefore_eq h
    have hsorted := I.chunks.sorted
    rw [h, Sorted, pairwise_append, pairwise_cons] at hsorted
    have hfront' : valuesOf (front ++ [c]) = valuesOf front ++ data (cellValues c.2) := by
      rw [valuesOf_append]
      exact congrArg _ (append_nil _)
    have hget : ∀ k, (addElement output c.1 (I.place c)).get k =
        (output.get k).or (if k = c.1 then some (I.place c) else none) :=
      get_addElement output c.1 (I.place c)
    rw [map_cons, computeLoop]
    rw [placeChunk_eq, ← hfront', ← hbefore]
    refine ih (by rw [h, append_assoc]; rfl) ?_ ?_
    · intro c' hc'
      rw [mem_append, mem_singleton] at hc'
      change (addElement output c.1 (I.place c)).get c'.1 = _
      rcases hc' with hc' | rfl
      · rw [hget, hfront c' hc', Option.some_or]
      · rw [hget, hrest c' mem_cons_self, if_pos rfl, Option.none_or]
    · intro c' hc'
      change (addElement output c.1 (I.place c)).get c'.1 = _
      rw [hget, hrest c' (mem_cons_of_mem c hc'), if_neg (hsorted.2.1.1 c' hc').ne']
      rfl

/-- All instances compute the same places. -/
theorem exchangeArrayInfo_spec (I : Input α) (me : Fin I.nInstances) :
    ∃ output, I.exchangeArrayInfo me = .ok output ∧
      ∀ c ∈ I.chunks.entries, output.get c.1 = some (I.place c) := by
  have hmine : I.Knows (· = me) (fillInputArrayInfo (I.onInstance me)) := by
    intro pos
    rw [get_fillInputArrayInfo, get_onInstance]
    constructor
    · intro h
      rw [if_pos h]
    · intro h
      rw [if_neg h]
      rfl
  rcases receive_spec (nodup_finRange I.nInstances) hmine rfl (fun i _ hi => hi) with
    ⟨info, hrun, hknows⟩
  have hinfo : info = I.chunks.map fun chunk => summary (data (cellValues chunk)) := by
    apply OrdMap.ext_get
    intro pos
    rw [get_map]
    exact (hknows pos).1 (.inr (mem_finRange _))
  refine ⟨computeOutputArrayInfo info, ?_, ?_⟩
  · rw [exchangeArrayInfo, hrun]
    rfl
  · rw [hinfo]
    have hall : I.chunks.entries = [] ++ I.chunks.entries := rfl
    exact computeLoop_spec hall (by simp) (fun c _ => get_empty c.1)

end Input

end SciDB.Operators.Uniq
