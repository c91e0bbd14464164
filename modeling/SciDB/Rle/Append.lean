import SciDB.Rle.Payload

/-!
# Appending to a payload

`RLEPayload::append_iterator` builds a payload from runs of values and from parts
of other payloads.  It keeps one unfinished segment, which is a run, a literal or
a run of nulls, and the last value it has stored.  Values of a fixed size lie one
after the other, booleans are bits, and values of variable size lie in a part of
their own behind their offsets.

Main results:

- Theorem {lit}`appendValue_spec`: one more value is stored.
- Theorem {lit}`Stored.reads`: stored values can be read from the finished payload.
-/

namespace SciDB.Rle

open Bytes List

/-- `append_iterator` together with the payload under construction; `data` holds
the fixed part until the end.  `_dataSize` is `data.length` throughout. -/
structure Appender where
  kind : Kind
  container : List Segment
  data : List UInt8
  varPart : List UInt8
  segm : Segment
  prevVal : Value
  valueIndex : Nat
  segLength : Nat

/-- `RLE_MAX_VARPART_OFFSET` -/
def maxVarpartOffset : Nat := 2 ^ 32 - 1

/-- The header in front of a datum of variable size. -/
def varHeader (d : Datum) : List UInt8 :=
  if d.length = 0 ∨ d.length > 0xFF then 0 :: le 4 d.length else [UInt8.ofNat d.length]

/-- `appendValueToTheEndOfVarPart` -/
def appendValueToTheEndOfVarPart (varPart : List UInt8) (d : Datum) :
    Except Fault (List UInt8) :=
  require (varPart.length ≤ maxVarpartOffset) (.chunkTooHuge varPart.length) <|
    .ok (varPart ++ (varHeader d ++ d))

/-- `getBool` -/
def getBool : Datum → Bool
  | b :: _ => b ≠ 0
  | [] => false

/-- Set the bit `1 << (index & 7)` of the last byte. -/
def setLastBit (data : List UInt8) (index : Nat) : List UInt8 :=
  data.modify (data.length - 1) (· ||| 1 <<< UInt8.ofNat (index % 8))

/-- `appendValue`: the new fixed and variable parts. -/
def appendValue (kind : Kind) (data varPart : List UInt8) (d : Datum) (valueIndex : Nat) :
    Except Fault (List UInt8 × List UInt8) :=
  match kind with
  | .boolean =>
    require (d.length = 1) (.assertion "val.size() == 1") <|
      let data := if valueIndex % 8 = 0 then data ++ [0] else data
      .ok (if getBool d then setLastBit data valueIndex else data, varPart)
  | .varying =>
    require (varPart.length ≤ maxVarpartOffset) (.chunkTooHuge varPart.length) do
      let varPart' ← appendValueToTheEndOfVarPart varPart d
      return (data ++ le 4 varPart.length, varPart')
  | .fixed elemSize _ =>
    require (d.length ≤ elemSize) (.truncation d.length elemSize) <|
      .ok (data ++ (d ++ List.replicate (elemSize - d.length) 0), varPart)

/-- `addSegment` -/
def addSegment (container : List Segment) (s : Segment) : Except Fault (List Segment) :=
  require (∀ last ∈ container.getLast?, last.pPosition < s.pPosition)
    (.assertion "_container[_container.size() - 1].pPosition() < segment.pPosition()") <|
    .ok (container ++ [s])

/-- The bytes of a value; a null has none. -/
def Value.bytes : Value → Datum
  | .datum d => d
  | .null _ => []

namespace Appender

/-- The constructor. -/
def start (kind : Kind) : Appender :=
  ⟨kind, [], [], [], .empty, .null 0, 0, 0⟩

/-- Store a value and count it. -/
def store (a : Appender) (d : Datum) : Except Fault Appender := do
  let (data, varPart) ← appendValue a.kind a.data a.varPart d a.valueIndex
  return { a with data := data, varPart := varPart, valueIndex := a.valueIndex + 1 }

/-- Add the unfinished segment and move behind it. -/
def close (a : Appender) : Except Fault Appender := do
  let container ← addSegment a.container a.segm
  return { a with
    container := container, segm := a.segm.addToPPosition a.segLength, segLength := 0 }

/-- `_segLength += count` -/
def lengthen (a : Appender) (count : Nat) : Appender :=
  { a with segLength := (a.segLength + count) % 2 ^ 64 }

/-- Nulls of one reason, for both ways to add. -/
def addNull (a : Appender) (reason count : Nat) : Except Fault Appender := do
  let a ← (if a.segLength ≠ 0 ∧ (¬ a.segm.null ∨ a.segm.valueIndex ≠ reason) then a.close
    else .ok a)
  let a := a.lengthen count
  let segm ← { a.segm with null := true, same := true }.setValueIndex reason
  return { a with segm := segm }

/-- `add(Value const& v, uint64_t count)` -/
def add (a : Appender) (v : Value) (count : Nat) : Except Fault Appender :=
  match v with
  | .null reason => a.addNull reason count
  | .datum d =>
    if a.segLength ≠ 0 ∧ ¬ a.segm.null ∧ .datum d = a.prevVal then
      if a.segm.same then
        .ok (a.lengthen count)
      else do
        -- the last value of the literal starts a run
        let container ← addSegment a.container a.segm
        let segm := { a.segm.addToPPosition (a.segLength - 1) with same := true }
        let segm ← segm.setValueIndex (a.valueIndex - 1)
        return { a with
          container := container
          segm := segm
          segLength := (1 + count) % 2 ^ 64 }
    else do
      let a ← (if a.segLength = 0 ∨ a.segm.null ∨ count > 1 then do
          let a ← (if a.segLength ≠ 0 then a.close else .ok a)
          let segm ← { a.segm with same := true, null := false }.setValueIndex a.valueIndex
          return { a with segm := segm }
        else if a.segLength > 1 ∧ a.segm.same then do
          let a ← a.close
          let segm ← a.segm.setValueIndex a.valueIndex
          return { a with segm := segm }
        else
          return { a with segm := { a.segm with same := false } })
      let a ← (a.lengthen count).store d
      return { a with prevVal := .datum d }

/-- The loop that copies `count` values one by one. -/
def copyValues (src : Payload) : (count : Nat) → Appender → Iterator →
    Except Fault (Appender × Iterator)
  | 0, a, ii => .ok (a, ii)
  | count + 1, a, ii => do
      let v ← ii.getItem src
      let a ← store { a with prevVal := v } v.bytes
      let ii ← ii.next src
      copyValues src count a ii

/-- The end of `add(iterator& ii, …)`, which copies the values of `count` cells. -/
def copyCells (a : Appender) (src : Payload) (ii : Iterator) (s : Segment) (count : Nat)
    (setupPrevVal : Bool) : Except Fault (Appender × Iterator) :=
  match a.kind with
  | .fixed elemSize _ =>
    let n := if a.segm.same then 1 else count
    require (n < 2 ^ 32) .badCast do
      let bytes ← readBytes src.data (ii.valueIndex s * elemSize) (elemSize * n)
      let a := { a with data := a.data ++ bytes, valueIndex := a.valueIndex + n }
      if setupPrevVal then
        let ii ← (if count > 1 then ii.advance src (count - 1) else .ok ii)
        let v ← ii.getItem src
        let ii ← ii.advance src 1
        return ({ a with prevVal := v }, ii)
      else
        let ii ← ii.advance src count
        return (a, ii)
  | _ =>
    if a.segm.same then do
      let v ← ii.getItem src
      let ii ← ii.advance src count
      let a ← store { a with prevVal := v } v.bytes
      return (a, ii)
    else copyValues src count a ii

/-- `add(iterator& ii, uint64_t limit, bool setupPrevVal)`: the new states of the
appender and of the iterator, and the number of cells added. -/
def addFrom (a : Appender) (src : Payload) (ii : Iterator) (limit : Nat) (setupPrevVal : Bool) :
    Except Fault (Appender × Iterator × Nat) := do
  let avail ← ii.available src
  let count := min limit avail
  let s ← ii.segment src
  if s.null then
    let a ← a.addNull s.valueIndex count
    let ii ← ii.advance src count
    return (a, ii, count)
  else
    let a ← (if a.segLength ≠ 0 ∧
          (a.segm.null ∨ (a.segm.same ∧ a.segLength > 1) ∨ (s.same ∧ count > 1)) then a.close
      else .ok a)
    let segm ← (if a.segLength = 0 then
        { a.segm with same := count = 1 ∨ s.same, null := false }.setValueIndex a.valueIndex
      else .ok { a.segm with same := false })
    let (a, ii) ← copyCells { a.lengthen count with segm := segm } src ii s count setupPrevVal
    return (a, ii, count)

/-- `flush` of the appender and of its payload: add the unfinished segment, the
variable part and the terminating segment. -/
def flush (a : Appender) : Except Fault Payload := do
  let container ← (if a.segLength ≠ 0 then addSegment a.container a.segm else .ok a.container)
  let chunkSize := toPosition (a.segm.pPosition + a.segLength)
  require (a.varPart ≠ [] → a.kind = .varying)
      (.assertion "Append/flush of varpart for fixed-size attribute") <|
    require (∀ last ∈ container.getLast?, last.pPosition < chunkSize)
      (.assertion "_nSegs == 0 || _container[_nSegs - 1].pPosition() < chunkSize") <|
      .ok
        { kind := a.kind
          segs := container ++ [{ Segment.empty with pPosition := chunkSize }]
          nSegs := container.length
          data := a.data ++ a.varPart
          varOffs := if a.varPart = [] then 0 else a.data.length }

end Appender

/-! ## Stored values -/

/-- The encoding of a datum in the variable part. -/
def encodeVar (d : Datum) : List UInt8 :=
  varHeader d ++ d

/-- The variable part for a list of values. -/
def varBytes (values : List Datum) : List UInt8 :=
  values.flatMap encodeVar

/-! ### Booleans -/

variable {i len off : Nat} {data a varPart c : List UInt8} {values ds : List Datum} {d : Datum}

theorem testBit_setBit (b : UInt8) {k : Nat} (hi : i < 8) :
    (b ||| 1 <<< UInt8.ofNat i).toNat.testBit k = (b.toNat.testBit k || decide (i = k)) := by
  have hbit : (1 <<< UInt8.ofNat i : UInt8).toNat = 2 ^ i := by
    interval_cases i <;> rfl
  rw [UInt8.toNat_or, Nat.testBit_or, hbit, Nat.testBit_two_pow]

/-- The bits of the bytes are those of the values. -/
def BitsOf (data : List UInt8) (values : List Datum) : Prop :=
  ∀ (j : Nat) (b : UInt8), data[j]? = some b → ∀ k < 8,
    b.toNat.testBit k = decide (values[8 * j + k]? = some [1])

/-- A new byte has no bits yet. -/
theorem BitsOf.push (h : BitsOf data values) (hlen : values.length = 8 * data.length) :
    BitsOf (data ++ [0]) values := by
  intro j b hb k hk
  by_cases hj : j < data.length
  · rw [getElem?_append_left hj] at hb
    exact h j b hb k hk
  · have hj' : j = data.length := by
      have := (List.getElem?_eq_some_iff.mp hb).1
      rw [length_append, length_singleton] at this
      omega
    subst hj'
    rw [getElem?_concat_length, Option.some.injEq] at hb
    rw [← hb, getElem?_eq_none (by omega)]
    simp

/-- Setting the bit behind the last value, or leaving it, stores the next value. -/
theorem BitsOf.store (h : BitsOf data values) (hlen : data.length = values.length / 8 + 1)
    (hd : d = [0] ∨ d = [1]) :
    BitsOf (if getBool d then setLastBit data values.length else data) (values ++ [d]) := by
  have hbits : ∀ (j : Nat) (b : UInt8), data[j]? = some b → ∀ k < 8,
      decide ((values ++ [d])[8 * j + k]? = some [1]) =
        (b.toNat.testBit k || decide (8 * j + k = values.length ∧ d = [1])) := by
    intro j b hb k hk
    rw [h j b hb k hk]
    rcases Nat.lt_trichotomy (8 * j + k) values.length with hlt | heq | hgt
    · rw [getElem?_append_left hlt]
      simp [hlt.ne]
    · rw [heq]
      simp
    · rw [getElem?_eq_none (by simp; omega), getElem?_eq_none (by omega)]
      simp [hgt.ne']
  rcases hd with rfl | rfl
  · intro j b hb k hk
    rw [hbits j b hb k hk]
    simp
  · intro j b hb k hk
    have htrue : getBool [1] = true := rfl
    rw [if_pos htrue, setLastBit, getElem?_modify] at hb
    rcases Option.map_eq_some_iff.mp hb with ⟨b', hb', rfl⟩
    rw [hbits j b' hb' k hk]
    by_cases hj : data.length - 1 = j
    · rw [if_pos hj, testBit_setBit b' (Nat.mod_lt _ (by norm_num))]
      congr 1
      simp only [and_true, decide_eq_decide]
      omega
    · rw [if_neg hj]
      have : 8 * j + k ≠ values.length := by omega
      simp [this]

/-- The bytes of the payload under construction are those of the values. -/
def Stored (data varPart : List UInt8) (values : List Datum) : Kind → Prop
  | .boolean => varPart = [] ∧ data.length = (values.length + 7) / 8 ∧ BitsOf data values
  | .fixed _ _ => varPart = [] ∧ data = values.flatten
  | .varying => varPart = varBytes values ∧
      data = (List.range values.length).flatMap (fun i => le 4 (varBytes (values.take i)).length) ∧
      ∀ i < values.length, (varBytes (values.take i)).length < 2 ^ 32

/-- Storing one more value. -/
theorem appendValue_spec {kind : Kind} (h : Stored data varPart values kind) (hd : kind.Admits d)
    (hvar : kind = .varying → varPart.length < 2 ^ 32) :
    ∃ data' varPart', appendValue kind data varPart d values.length = .ok (data', varPart') ∧
      Stored data' varPart' (values ++ [d]) kind := by
  cases kind with
  | boolean =>
    rcases h with ⟨hvarPart, hlen, hbits⟩
    have hone : d.length = 1 := by rcases hd with rfl | rfl <;> rfl
    rw [appendValue, require_pos hone]
    refine ⟨_, _, rfl, hvarPart, ?_, ?_⟩
    · have hset : ∀ data : List UInt8, (if getBool d then setLastBit data values.length
          else data).length = data.length := by
        intro data
        split
        · rw [setLastBit, length_modify]
        · rfl
      rw [hset, length_append, length_singleton]
      split
      · rw [length_append, length_singleton]
        omega
      · omega
    · by_cases hzero : values.length % 8 = 0
      · rw [if_pos hzero]
        refine (hbits.push (by omega)).store ?_ hd
        rw [length_append, length_singleton]
        omega
      · rw [if_neg hzero]
        exact hbits.store (by omega) hd
  | fixed elemSize pos =>
    rcases h with ⟨hvarPart, hdata⟩
    have hlen : d.length = elemSize := hd
    rw [appendValue, require_pos hlen.le]
    refine ⟨_, _, rfl, hvarPart, ?_⟩
    rw [hlen, Nat.sub_self, replicate_zero, append_nil, hdata, flatten_append, flatten_singleton]
  | varying =>
    rcases h with ⟨hvarPart, hdata, hlt⟩
    have hlen := hvar rfl
    have hle : varPart.length ≤ maxVarpartOffset := by
      unfold maxVarpartOffset
      omega
    have htake : ∀ i, i ≤ values.length → (values ++ [d]).take i = values.take i := fun i hi =>
      take_append_of_le_length hi
    rw [appendValue, require_pos hle, appendValueToTheEndOfVarPart, require_pos hle]
    refine ⟨_, _, rfl, ?_, ?_, ?_⟩
    · rw [hvarPart, varBytes, varBytes]
      simp [encodeVar]
    · rw [length_append, length_singleton, range_succ, flatMap_append,
        flatMap_singleton, htake _ le_rfl, take_length, ← hvarPart, hdata]
      congr 1
      apply flatMap_congr
      intro i hi
      rw [htake i (mem_range.mp hi).le]
    · intro i hi
      rw [length_append, length_singleton] at hi
      rw [htake i (by omega)]
      by_cases hin : i < values.length
      · exact hlt i hin
      · rw [show i = values.length by omega, take_length, ← hvarPart]
        exact hlen

/-! ## Reading what was stored -/

theorem readBytes_mid {b : List UInt8} (hoff : a.length = off) (hlen : b.length = len) :
    readBytes (a ++ (b ++ c)) off len = .ok b := by
  rw [readBytes, require_pos, slice_mid hoff hlen]
  simp only [length_append]
  omega

theorem readBytes_eq_ok {bytes : List UInt8} :
    readBytes data off len = .ok bytes ↔ off + len ≤ data.length ∧ slice data off len = bytes := by
  rw [readBytes, require_eq_ok, Except.ok.injEq]

/-- Reading several data at once. -/
theorem readBytes_many (hne : ds ≠ [])
    (h : ∀ j d, ds[j]? = some d → readBytes data ((i + j) * len) len = .ok d) :
    readBytes data (i * len) (len * ds.length) = .ok ds.flatten := by
  induction ds generalizing i with
  | nil => exact absurd rfl hne
  | cons d ds ih =>
    have hfirst := h 0 d rfl
    rw [Nat.add_zero] at hfirst
    by_cases hds : ds = []
    · subst hds
      simpa using hfirst
    · have hrest := ih (i := i + 1) hds (fun j d' hd' => by
        rw [Nat.add_assoc, Nat.add_comm 1]
        exact h (j + 1) d' hd')
      rw [readBytes_eq_ok] at hfirst hrest ⊢
      have hlen : len * (d :: ds).length = len + len * ds.length := by
        rw [length_cons]
        ring
      have hoff : (i + 1) * len = i * len + len := by ring
      rw [hoff] at hrest
      rw [hlen, flatten_cons, ← hfirst.2, ← hrest.2]
      refine ⟨by omega, ?_⟩
      rw [slice, slice, slice, take_add, drop_drop]

theorem readByte_mid {b : UInt8} (hoff : a.length = off) : readByte (a ++ b :: c) off = .ok b := by
  rw [readByte, getElem?_append_right hoff.le, hoff, Nat.sub_self]
  rfl

theorem length_flatten_of_forall (h : ∀ d ∈ ds, d.length = len) :
    ds.flatten.length = ds.length * len := by
  rw [length_flatten, map_congr_left h, map_const', sum_replicate, smul_eq_mul]

/-- Reading one of many data of the same length. -/
theorem readBytes_flatten (h : ∀ d ∈ ds, d.length = len) (hd : ds[i]? = some d)
    (rest : List UInt8) :
    readBytes (ds.flatten ++ rest) (i * len) len = .ok d := by
  rcases List.getElem?_eq_some_iff.mp hd with ⟨hi, heq⟩
  have hsplit : ds.flatten ++ rest =
      (ds.take i).flatten ++ (d ++ ((ds.drop (i + 1)).flatten ++ rest)) := by
    conv_lhs => rw [← List.take_append_drop i ds, List.drop_eq_getElem_cons hi, heq]
    simp
  rw [hsplit]
  apply readBytes_mid
  · rw [length_flatten_of_forall fun d' hd' => h d' (mem_of_mem_take hd'), length_take,
      Nat.min_eq_left hi.le]
  · exact h d (mem_of_getElem? hd)

/-- The header gives the sizes back. -/
theorem getSizeOfVarPartForOneDatum_mid {rest : List UInt8} {address : Nat}
    (haddress : a.length = address) (hd : d.length < 2 ^ 32) :
    getSizeOfVarPartForOneDatum (a ++ (varHeader d ++ rest)) address =
      .ok ((varHeader d).length, d.length) := by
  rw [getSizeOfVarPartForOneDatum]
  by_cases hlong : d.length = 0 ∨ d.length > 0xFF
  · have hheader : varHeader d = 0 :: le 4 d.length := if_pos hlong
    have hbytes : readBytes (a ++ (0 :: le 4 d.length ++ rest)) (address + 1) 4 =
        .ok (le 4 d.length) := by
      have hshift : a ++ (0 :: le 4 d.length ++ rest) = (a ++ [0]) ++ (le 4 d.length ++ rest) := by
        simp
      rw [hshift]
      exact readBytes_mid (by simp [haddress]) (length_le 4 _)
    simp only [hheader, cons_append, readByte_mid haddress, bind, Except.bind] at hbytes ⊢
    rw [if_neg (by simp), hbytes]
    simp only [ofLe_le_of_lt (show d.length < 256 ^ 4 by omega), require_pos hlong,
      length_cons, length_le]
  · have hheader : varHeader d = [UInt8.ofNat d.length] := if_neg hlong
    have hnat : (UInt8.ofNat d.length).toNat = d.length := by
      rw [UInt8.toNat_ofNat']
      omega
    have hne : UInt8.ofNat d.length ≠ 0 := by
      intro heq
      rw [heq] at hnat
      simp only [UInt8.toNat_zero] at hnat
      omega
    simp only [hheader, cons_append, readByte_mid haddress, bind, Except.bind]
    rw [if_pos hne, hnat]
    rfl

/-- Every stored value can be read from the finished payload. -/
theorem Stored.reads {p : Payload} (h : Stored data varPart values p.kind)
    (hdata : p.data = data ++ varPart) (hoffs : varPart ≠ [] → p.varOffs = data.length)
    (hfew : values.length ≤ 2 ^ 30) (hadmits : ∀ d ∈ values, p.kind.Admits d)
    (hd : values[i]? = some d) :
    p.getValueByIndex i = .ok (.datum d) := by
  rcases List.getElem?_eq_some_iff.mp hd with ⟨hi, heq⟩
  have hmax : i ≤ maxDataIndex := by
    unfold maxDataIndex
    omega
  have had := hadmits d (List.mem_of_getElem? hd)
  rw [Payload.getValueByIndex, require_pos hmax]
  cases hkind : p.kind with
  | boolean =>
    rw [hkind] at h had
    rcases h with ⟨hvarPart, hlen, hbits⟩
    have hbyte : data[i / 8]? = some (data.get ⟨i / 8, by omega⟩) := List.getElem?_eq_getElem _
    have hbit := hbits (i / 8) _ hbyte (i % 8) (Nat.mod_lt _ (by norm_num))
    rw [Nat.div_add_mod, hd] at hbit
    simp only [hdata, hvarPart, List.append_nil, readByte, hbyte, bind, Except.bind, bitAt, hbit]
    rcases had with rfl | rfl <;> rfl
  | fixed elemSize pos =>
    rw [hkind] at h hadmits
    rcases h with ⟨hvarPart, hflat⟩
    simp only [hdata, hflat, readBytes_flatten hadmits hd]
    rfl
  | varying =>
    rw [hkind] at h had
    rcases h with ⟨hvarPart, hfixed, hlt⟩
    -- the variable part around the value
    have hsplit : varPart = varBytes (values.take i) ++
        (varHeader d ++ (d ++ varBytes (values.drop (i + 1)))) := by
      rw [hvarPart]
      conv_lhs => rw [← List.take_append_drop i values, List.drop_eq_getElem_cons hi, heq]
      simp [varBytes, encodeVar]
    have hne : varPart ≠ [] := by
      rw [hsplit]
      unfold varHeader
      split <;> simp
    have hoff : readBytes p.data (i * 4) 4 = .ok (le 4 (varBytes (values.take i)).length) := by
      rw [hdata, hfixed]
      apply readBytes_flatten
      · simp
      · rw [List.getElem?_map, List.getElem?_range hi]
        rfl
    have hbytes : p.data = (data ++ varBytes (values.take i)) ++
        (varHeader d ++ (d ++ varBytes (values.drop (i + 1)))) := by
      rw [hdata, hsplit, List.append_assoc]
    have hsrc : (data ++ varBytes (values.take i)).length =
        p.varOffs + (varBytes (values.take i)).length := by
      rw [List.length_append, hoffs hne]
    have hsizes : getSizeOfVarPartForOneDatum p.data
        (p.varOffs + (varBytes (values.take i)).length) =
        .ok ((varHeader d).length, d.length) := by
      rw [hbytes]
      exact getSizeOfVarPartForOneDatum_mid hsrc had
    have hdatum : readBytes p.data
        (p.varOffs + (varBytes (values.take i)).length + (varHeader d).length) d.length =
        .ok d := by
      rw [hbytes, ← List.append_assoc]
      exact readBytes_mid (by rw [List.length_append, hsrc]) rfl
    simp only [hoff, bind, Except.bind, ofLe_le_of_lt (show _ < 256 ^ 4 by
      have := hlt i hi
      omega), hsizes, hdatum]
    rfl

end SciDB.Rle
