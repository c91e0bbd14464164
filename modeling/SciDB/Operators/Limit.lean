import Mathlib

/-!
# The limit operator

Every instance counts the cells it has for the window, the coordinator lowers the
counts to what was asked for, and every instance copies as many cells as it was
given, chunk by chunk.  The definitions follow
`src/query/ops/limit/PhysicalLimit.cpp`.  A cell stands for its coordinates and the
values of all its attributes, which are read and written in step.

The offset is skipped in every chunk that is visited, and skipping past the end of
a chunk throws, so a window with an offset is right only if it lies in the first
chunk.

Main results:

- Theorem {lit}`limitCells_eq_iff`: what one instance writes.
- Theorem {lit}`limit_exact_iff`: when the operator returns the window asked for.
-/

namespace SciDB.Operators.Limit

open List

/-- `SCIDB_LE_NO_CURRENT_ELEMENT` -/
inductive Fault where
  | noCurrentElement
deriving DecidableEq, Repr

/-- `std::numeric_limits<ssize_t>::max()` -/
def ssizeMax : Nat := 2 ^ 63 - 1

variable {α : Type*}

/-! ## Counting -/

/-- Add up the counts of the chunks until the end of the window is reached. -/
def countLoop (endPt : Nat) : (numCells : Nat) → List (List α) → Nat
  | numCells, [] => numCells
  | numCells, chunk :: chunks =>
    if numCells < endPt then countLoop endPt (numCells + chunk.length) chunks else numCells

def countCellsInRange (chunks : List (List α)) (count offset : Nat) : Nat :=
  let numCells := countLoop ((count + offset) % 2 ^ 64) 0 chunks
  let numCells := if numCells > offset then numCells - offset else numCells
  if numCells > count then count else numCells

/-- What is left for an instance when some cells are given to those before it. -/
def lowerCount (count totalCount available : Nat) : Nat :=
  if available > count then count
  else if totalCount + available > count then
    if (count : Int) - totalCount > 0 then count - totalCount else 0
  else available

/-- The coordinator lowers everyone's count as needed. -/
def requiredCounts (count : Nat) : (totalCount : Nat) → List Nat → List Nat
  | _, [] => []
  | totalCount, available :: rest =>
    let required := lowerCount count totalCount available
    required :: requiredCounts count (totalCount + required) rest

/-! ## Copying -/

/-- Move a chunk iterator forward a number of times. -/
def skip : Nat → List α → Except Fault (List α)
  | 0, cells => .ok cells
  | _ + 1, [] => .error .noCurrentElement
  | n + 1, _ :: cells => skip n cells

/-- Copy cells of a chunk until the count is reached. -/
def copyCells (count : Nat) : (written : List α) → List α → List α
  | written, [] => written
  | written, cell :: cells =>
    if written.length < count then copyCells count (written ++ [cell]) cells else written

def makeLimitedArray (count offset : Nat) :
    (written : List α) → List (List α) → Except Fault (List α)
  | written, [] => .ok written
  | written, chunk :: chunks =>
    if written.length < count then do
      let cells ← skip offset chunk
      makeLimitedArray count offset (copyCells count written cells) chunks
    else .ok written

/-- What an instance writes when it is given a count. -/
def limitCells (requiredCount offset : Nat) (chunks : List (List α)) : Except Fault (List α) :=
  if requiredCount = 0 then .ok [] else makeLimitedArray requiredCount offset [] chunks

/-- The count parameter; null and large values mean no limit. -/
def getCount : Option UInt64 → Nat
  | some limVal => if limVal.toNat < ssizeMax then limVal.toNat else ssizeMax
  | none => ssizeMax

/-- An array: the cells of every chunk, in the order of a scan, of every instance.
Cells are distinct, and their number fits in `ssize_t`. -/
structure Input (α : Type*) where
  instances : List (List (List α))
  distinct : instances.flatten.flatten.Nodup
  few : instances.flatten.flatten.length ≤ ssizeMax

variable (A : Input α)

/-- `execute` on all instances. -/
def Input.execute (lim : Option UInt64) (offset : UInt64) :
    List (Except Fault (List α)) :=
  let count := getCount lim
  let available := A.instances.map (countCellsInRange · count offset.toNat)
  (A.instances.zip (requiredCounts count 0 available)).map
    (fun e => limitCells e.2 offset.toNat e.1)

/-! ## What limit is for -/

/-- The first cells, as many as asked for. -/
def firstCells : Option UInt64 → List α → List α
  | some limVal, cells => cells.take limVal.toNat
  | none, cells => cells

/-- The output of the operator is the window asked for if all cells are on one
instance, and has as many cells as asked for if there is no offset. -/
structure Input.Exact (lim : Option UInt64) (offset : UInt64) : Prop where
  alone : ∀ front chunks back, A.instances = front ++ chunks :: back →
    (∀ other ∈ front ++ back, other.flatten = []) →
    ∃ out : List (List α), A.execute lim offset = out.map .ok ∧
      out.flatten = firstCells lim (chunks.flatten.drop offset.toNat)
  total : offset = 0 → ∃ out : List (List α), A.execute lim offset = out.map .ok ∧
    out.flatten.length = (firstCells lim A.instances.flatten.flatten).length ∧
    List.Forall₂ List.Sublist out (A.instances.map List.flatten)

/-- There is no window to miss, or it lies in the first chunk. -/
def Aligned (count offset : Nat) (chunks : List (List α)) : Prop :=
  offset = 0 ∨ count = 0 ∨ chunks.flatten.length = 0 ∨ (count + offset) % 2 ^ 64 = 0 ∨
    (chunks.length = 1 ∧ offset = chunks.flatten.length) ∨
    (offset < chunks.flatten.length ∧
      min (offset + count) chunks.flatten.length ≤ (chunks.headD []).length)

/-- Wherever one instance has all cells, its chunks are aligned. -/
def Input.Aligned (lim : Option UInt64) (offset : UInt64) : Prop :=
  ∀ front chunks back, A.instances = front ++ chunks :: back →
    (∀ other ∈ front ++ back, other.flatten = []) →
    Limit.Aligned (getCount lim) offset.toNat chunks

/-! ## Counting -/

variable {count offset : Nat} {chunks : List (List α)}

/-- The loop stops behind the end of the window or has counted everything. -/
theorem countLoop_spec (endPt n : Nat) (chunks : List (List α)) :
    countLoop endPt n chunks ≤ n + chunks.flatten.length ∧
      (countLoop endPt n chunks = n + chunks.flatten.length ∨
        endPt ≤ countLoop endPt n chunks) := by
  induction chunks generalizing n with
  | nil => simp [countLoop]
  | cons chunk chunks ih =>
    have := ih (n + chunk.length)
    rw [countLoop, flatten_cons, length_append]
    split <;> omega

theorem getCount_le (lim : Option UInt64) : getCount lim ≤ ssizeMax := by
  cases lim with
  | none => exact le_rfl
  | some limVal =>
    rw [getCount]
    split <;> omega

theorem firstCells_eq (lim : Option UInt64) {cells : List α} (h : cells.length ≤ ssizeMax) :
    firstCells lim cells = cells.take (getCount lim) := by
  cases lim with
  | none => exact (take_of_length_le h).symm
  | some limVal =>
    rw [firstCells, getCount]
    split
    · rfl
    · rw [take_of_length_le h, take_of_length_le (by omega)]

theorem countCellsInRange_le : countCellsInRange chunks count offset ≤ count := by
  rw [countCellsInRange]
  split <;> split <;> omega

theorem countCellsInRange_zero (chunks : List (List α)) (hcount : count ≤ ssizeMax) :
    countCellsInRange chunks count 0 = min count chunks.flatten.length := by
  have hspec := countLoop_spec ((count + 0) % 2 ^ 64) 0 chunks
  have hmod : (count + 0) % 2 ^ 64 = count :=
    Nat.mod_eq_of_lt (by rw [ssizeMax] at hcount; omega)
  rw [hmod] at hspec
  rw [countCellsInRange, hmod]
  split <;> split <;> omega

/-- Cells behind the offset are counted exactly. -/
theorem countCellsInRange_of_lt (hcount : count ≤ ssizeMax) (hpos : 0 < count)
    (hfew : chunks.flatten.length ≤ ssizeMax) (h : offset < chunks.flatten.length) :
    countCellsInRange chunks count offset = min count (chunks.flatten.length - offset) := by
  have hspec := countLoop_spec ((count + offset) % 2 ^ 64) 0 chunks
  have hmod : (count + offset) % 2 ^ 64 = count + offset :=
    Nat.mod_eq_of_lt (by rw [ssizeMax] at hcount hfew; omega)
  rw [hmod] at hspec
  rw [countCellsInRange, hmod]
  split <;> split <;> omega

/-- If there are none, what the loop has counted is taken for them. -/
theorem countCellsInRange_eq_zero_iff (count : Nat) (h : chunks.flatten.length ≤ offset) :
    countCellsInRange chunks count offset = 0 ↔
      count = 0 ∨ chunks.flatten.length = 0 ∨ (count + offset) % 2 ^ 64 = 0 := by
  have hspec := countLoop_spec ((count + offset) % 2 ^ 64) 0 chunks
  have hzero : (count + offset) % 2 ^ 64 = 0 →
      countLoop ((count + offset) % 2 ^ 64) 0 chunks = 0 := by
    intro heq
    rw [heq]
    cases chunks <;> rfl
  rw [countCellsInRange]
  split <;> split <;> omega

/-! ## Copying -/

theorem skip_eq (n : Nat) (cells : List α) :
    skip n cells = if n ≤ cells.length then .ok (cells.drop n) else .error .noCurrentElement := by
  induction n generalizing cells with
  | zero => simp [skip]
  | succ n ih =>
    cases cells with
    | nil => simp [skip]
    | cons cell cells => simp [skip, ih]

variable {written : List α} {total : Nat} {back front : List (List (List α))}

theorem copyCells_eq (h : written.length ≤ count) (cells : List α) :
    copyCells count written cells = written ++ cells.take (count - written.length) := by
  induction cells generalizing written with
  | nil => simp [copyCells]
  | cons cell cells ih =>
    rw [copyCells]
    split
    · next hlt =>
      obtain ⟨k, hk⟩ : ∃ k, count - written.length = k + 1 := ⟨count - written.length - 1, by omega⟩
      rw [ih (by simpa using hlt), hk]
      simp [show count - (written.length + 1) = k by omega]
    · next hge => simp [show count - written.length = 0 by omega]

/-- One chunk. -/
theorem makeLimitedArray_cons {chunk : List α} (h : written.length < count) :
    makeLimitedArray count offset written (chunk :: chunks) =
      if offset ≤ chunk.length then
        makeLimitedArray count offset
          (written ++ (chunk.drop offset).take (count - written.length)) chunks
      else .error .noCurrentElement := by
  rw [makeLimitedArray, if_pos h, skip_eq]
  split
  · rw [← copyCells_eq h.le]
    rfl
  · rfl

theorem makeLimitedArray_full (h : count ≤ written.length) :
    makeLimitedArray count offset written chunks = .ok written := by
  cases chunks with
  | nil => rfl
  | cons chunk chunks => rw [makeLimitedArray, if_neg (not_lt.mpr h)]

/-- Without an offset the chunks are copied one after the other. -/
theorem makeLimitedArray_zero (h : written.length ≤ count) (chunks : List (List α)) :
    makeLimitedArray count 0 written chunks =
      .ok (written ++ chunks.flatten.take (count - written.length)) := by
  induction chunks generalizing written with
  | nil => simp [makeLimitedArray]
  | cons chunk chunks ih =>
    rcases h.lt_or_eq with hlt | heq
    · rw [makeLimitedArray_cons hlt, if_pos (Nat.zero_le _), drop_zero, ih (by simp; omega),
        flatten_cons, take_append, append_assoc]
      simp only [length_append, length_take]
      congr 4
      omega
    · rw [makeLimitedArray_full heq.ge]
      simp [heq]

/-- The first cells of a chunk are never written. -/
theorem mem_of_makeLimitedArray {out : List α} {x : α}
    (h : makeLimitedArray count offset written chunks = .ok out) (hx : x ∈ out) :
    x ∈ written ∨ ∃ chunk ∈ chunks, x ∈ chunk.drop offset := by
  induction chunks generalizing written with
  | nil =>
    cases h
    exact .inl hx
  | cons chunk chunks ih =>
    by_cases hlt : written.length < count
    · rw [makeLimitedArray_cons hlt] at h
      split at h
      · rcases ih h with hmem | ⟨c, hc, hmem⟩
        · rcases mem_append.mp hmem with hmem | hmem
          · exact .inl hmem
          · exact .inr ⟨chunk, mem_cons_self, mem_of_mem_take hmem⟩
        · exact .inr ⟨c, mem_cons_of_mem _ hc, hmem⟩
      · cases h
    · rw [makeLimitedArray_full (not_lt.mp hlt)] at h
      cases h
      exact .inl hx

/-! ## One instance -/

theorem limitCells_zero (required : Nat) (chunks : List (List α)) :
    limitCells required 0 chunks = .ok (chunks.flatten.take required) := by
  rw [limitCells]
  split
  · next heq => simp [heq]
  · exact makeLimitedArray_zero (Nat.zero_le _) chunks

/-- The whole input is skipped. -/
theorem makeLimitedArray_eq_nil_iff {required : Nat} (hpos : 0 < required)
    (hcells : 0 < chunks.flatten.length) (h : chunks.flatten.length ≤ offset) :
    makeLimitedArray required offset [] chunks = .ok [] ↔
      chunks.length = 1 ∧ offset = chunks.flatten.length := by
  cases chunks with
  | nil => simp at hcells
  | cons chunk chunks =>
    rw [flatten_cons, length_append] at h hcells ⊢
    rw [makeLimitedArray_cons (by simpa using hpos)]
    split
    · next hle =>
      rw [drop_of_length_le (by omega)]
      cases chunks with
      | nil => simp [makeLimitedArray]; simp at h; omega
      | cons next chunks =>
        have hempty : next.length = 0 := by
          simp at h
          omega
        rw [makeLimitedArray_cons (by simpa using hpos), if_neg (by omega)]
        simp
    · next hgt =>
      simp only [reduceCtorEq, false_iff]
      rintro ⟨hone, heq⟩
      have hnil : chunks = [] := length_eq_zero_iff.mp (by simpa using hone)
      simp [hnil] at heq
      omega

/-- A window that starts in the input. -/
theorem makeLimitedArray_eq_window_iff (hdistinct : chunks.flatten.Nodup) (hpos : 0 < count)
    (hoffset : 0 < offset) (h : offset < chunks.flatten.length) :
    makeLimitedArray (min count (chunks.flatten.length - offset)) offset [] chunks =
        .ok ((chunks.flatten.drop offset).take count) ↔
      min (offset + count) chunks.flatten.length ≤ (chunks.headD []).length := by
  cases chunks with
  | nil => simp at h
  | cons chunk chunks =>
    have hlen : (chunk :: chunks).flatten.length = chunk.length + chunks.flatten.length := by
      rw [flatten_cons, length_append]
    rw [hlen] at h ⊢
    rw [makeLimitedArray_cons (by rw [length_nil]; omega), headD_cons]
    split
    · next hle =>
      rw [nil_append, length_nil, Nat.sub_zero, flatten_cons, drop_append_of_le_length hle]
      by_cases hfits : min (offset + count) (chunk.length + chunks.flatten.length) ≤ chunk.length
      · -- the first chunk has the whole window
        have hwindow : (chunk.drop offset ++ chunks.flatten).take count =
            (chunk.drop offset).take
              (min count (chunk.length + chunks.flatten.length - offset)) := by
          rw [take_append, length_drop]
          have hrest : chunks.flatten.take (count - (chunk.length - offset)) = [] := by
            rcases Nat.eq_zero_or_pos chunks.flatten.length with hz | hz
            · rw [length_eq_zero_iff.mp hz, take_nil]
            · rw [show count - (chunk.length - offset) = 0 by omega, take_zero]
          rw [hrest, append_nil, take_eq_take_iff, length_drop]
          omega
        have hfull : min count (chunk.length + chunks.flatten.length - offset) ≤
            ((chunk.drop offset).take
              (min count (chunk.length + chunks.flatten.length - offset))).length := by
          rw [length_take, length_drop]
          omega
        rw [makeLimitedArray_full hfull, hwindow]
        exact iff_of_true rfl hfits
      · refine iff_of_false ?_ hfits
        intro hok
        cases chunks with
        | nil => simp at hfits
        | cons next rest =>
          rw [makeLimitedArray_cons (by rw [length_take, length_drop]; omega)] at hok
          split at hok
          · next hnext =>
            -- the first cell of the second chunk is in the window but is skipped
            obtain ⟨first, cells, rfl⟩ : ∃ first cells, next = first :: cells :=
              exists_cons_of_length_pos (by omega)
            have hfirst : first ∈ (chunk.drop offset ++ ((first :: cells) :: rest).flatten).take
                count := by
              rw [take_append]
              refine mem_append_right _ ?_
              obtain ⟨k, hk⟩ : ∃ k, count - (chunk.drop offset).length = k + 1 :=
                ⟨count - (chunk.drop offset).length - 1, by rw [length_drop]; omega⟩
              rw [hk]
              exact mem_cons_self
            rw [flatten_cons, flatten_cons, cons_append] at hdistinct
            have hnotRest := (nodup_append.mp hdistinct).2.1
            rw [nodup_cons, mem_append, not_or] at hnotRest
            have hnotChunk : first ∉ chunk := fun hmem =>
              (nodup_append.mp hdistinct).2.2 first hmem first mem_cons_self rfl
            rcases mem_of_makeLimitedArray hok hfirst with hmem | ⟨c, hc, hmem⟩
            · rcases mem_append.mp hmem with hmem | hmem
              · exact hnotChunk (mem_of_mem_drop (mem_of_mem_take hmem))
              · obtain ⟨k, hk⟩ : ∃ k, offset = k + 1 := ⟨offset - 1, by omega⟩
                have hmem := mem_of_mem_take hmem
                rw [hk] at hmem
                exact hnotRest.1.1 (mem_of_mem_drop hmem)
            · exact hnotRest.1.2 (mem_flatten_of_mem hc (mem_of_mem_drop hmem))
          · cases hok
    · next hgt =>
      refine iff_of_false (by simp) ?_
      omega

/-- What an instance writes that is given the count it has reported. -/
theorem limitCells_eq_iff (hcount : count ≤ ssizeMax) (hfew : chunks.flatten.length ≤ ssizeMax)
    (hdistinct : chunks.flatten.Nodup) :
    limitCells (countCellsInRange chunks count offset) offset chunks =
      .ok ((chunks.flatten.drop offset).take count) ↔ Aligned count offset chunks := by
  rcases Nat.eq_zero_or_pos offset with rfl | hoffset
  · have hr := countCellsInRange_zero chunks hcount
    rw [hr, limitCells_zero, drop_zero]
    refine iff_of_true ?_ (.inl rfl)
    rw [← take_take, take_length]
  · have hne : offset ≠ 0 := Nat.ne_of_gt hoffset
    rw [Aligned]
    rcases Nat.eq_zero_or_pos count with rfl | hpos
    · have hr : countCellsInRange chunks 0 offset = 0 := Nat.le_zero.mp countCellsInRange_le
      simp [hr, limitCells]
    · rcases Nat.lt_or_ge offset chunks.flatten.length with hlt | hge
      · rw [countCellsInRange_of_lt hcount hpos hfew hlt, limitCells, if_neg (by omega),
          makeLimitedArray_eq_window_iff hdistinct hpos hoffset hlt]
        have hmod : (count + offset) % 2 ^ 64 ≠ 0 := by
          rw [ssizeMax] at hcount hfew
          omega
        have hne' : offset ≠ chunks.flatten.length := hlt.ne
        simp only [hne, hpos.ne', (Nat.lt_of_le_of_lt (Nat.zero_le _) hlt).ne', hmod, hne', hlt,
          and_false, false_or, true_and]
      · rw [drop_of_length_le hge, take_nil, limitCells]
        have hzero := countCellsInRange_eq_zero_iff count hge
        by_cases hr : countCellsInRange chunks count offset = 0
        · rw [if_pos hr]
          refine iff_of_true rfl ?_
          rcases hzero.mp hr with h | h | h
          · exact .inr (.inl h)
          · exact .inr (.inr (.inl h))
          · exact .inr (.inr (.inr (.inl h)))
        · have hnot := mt hzero.mpr hr
          push Not at hnot
          rw [if_neg hr, makeLimitedArray_eq_nil_iff (Nat.pos_of_ne_zero hr)
            (Nat.pos_of_ne_zero hnot.2.1) hge]
          simp only [hne, hnot.1, hnot.2.1, hnot.2.2, not_lt.mpr hge, false_and, or_false, false_or]

/-! ## All instances -/

theorem lowerCount_eq {available : Nat} (h : available ≤ count) :
    lowerCount count total available = min available (count - total) := by
  rw [lowerCount, if_neg (not_lt.mpr h)]
  split
  · split <;> omega
  · omega

/-- The counts given out are not larger than those reported, and add up to the count
asked for or to all. -/
theorem requiredCounts_spec (htotal : total ≤ count) (available : List Nat)
    (h : ∀ a ∈ available, a ≤ count) :
    List.Forall₂ (· ≤ ·) (requiredCounts count total available) available ∧
      (requiredCounts count total available).sum = min (count - total) available.sum := by
  induction available generalizing total with
  | nil => simp [requiredCounts]
  | cons a available ih =>
    rw [requiredCounts, lowerCount_eq (h a mem_cons_self)]
    have hrest := @ih (total + min a (count - total)) (by omega)
      fun b hb => h b (mem_cons_of_mem a hb)
    rw [sum_cons, sum_cons]
    exact ⟨List.Forall₂.cons (min_le_left _ _) hrest.1, by omega⟩

/-- Nothing is lowered if there is enough for all. -/
theorem requiredCounts_eq_self {available : List Nat} (h : total + available.sum ≤ count) :
    requiredCounts count total available = available := by
  induction available generalizing total with
  | nil => rfl
  | cons a available ih =>
    rw [sum_cons] at h
    rw [requiredCounts, lowerCount_eq (by omega), min_eq_left (by omega), ih (by omega)]

theorem countCellsInRange_of_empty (h : chunks.flatten = []) :
    countCellsInRange chunks count offset = 0 := by
  have hlen : chunks.flatten.length = 0 := length_eq_zero_iff.mpr h
  exact (countCellsInRange_eq_zero_iff count (by omega)).mpr (.inr (.inl hlen))

/-- All others write nothing if one instance has all cells. -/
theorem execute_alone (lim : Option UInt64) (offset : UInt64)
    (h : A.instances = front ++ chunks :: back)
    (hothers : ∀ other ∈ front ++ back, other.flatten = []) :
    A.execute lim offset = front.map (fun _ => .ok []) ++
      limitCells (countCellsInRange chunks (getCount lim) offset.toNat) offset.toNat chunks ::
        back.map (fun _ => .ok []) := by
  have hzero : ∀ other ∈ front ++ back,
      countCellsInRange other (getCount lim) offset.toNat = 0 := fun other hother =>
    countCellsInRange_of_empty (hothers other hother)
  have hsum : ∀ l : List (List (List α)), (∀ other ∈ l,
      countCellsInRange other (getCount lim) offset.toNat = 0) →
      (l.map (countCellsInRange · (getCount lim) offset.toNat)).sum = 0 := fun l hl =>
    sum_eq_zero (by simpa using hl)
  have hrest : ∀ l : List (List (List α)), (∀ other ∈ l,
      countCellsInRange other (getCount lim) offset.toNat = 0) →
      l.map (fun c => limitCells (countCellsInRange c (getCount lim) offset.toNat) offset.toNat c) =
        l.map (fun _ => .ok []) := fun l hl =>
    map_congr_left fun c hc => by rw [hl c hc, limitCells, if_pos rfl]
  have hfront := fun other hother => hzero other (mem_append_left back hother)
  have hback := fun other hother => hzero other (mem_append_right front hother)
  rw [Input.execute, requiredCounts_eq_self]
  · rw [← map_id A.instances, map_map, zip_map', map_map, h, map_append]
    exact congrArg₂ (· ++ _ :: ·) (hrest front hfront) (hrest back hback)
  · rw [h, map_append, map_cons, sum_append, sum_cons, hsum front hfront,
      hsum back hback, Nat.zero_add, Nat.zero_add]
    exact countCellsInRange_le

/-- Only one instance matters if all others write nothing. -/
theorem exists_out_iff {x : Except Fault (List α)} {window : List α} :
    (∃ out : List (List α), front.map (fun _ => .ok []) ++ x :: back.map (fun _ => .ok []) =
      out.map .ok ∧ out.flatten = window) ↔ x = .ok window := by
  have hnil : ∀ (l : List (List (List α))) (out : List (List α)),
      out.map Except.ok = l.map (fun _ => (.ok [] : Except Fault (List α))) → out.flatten = [] := by
    intro l out heq
    refine flatten_eq_nil_iff.mpr fun o ho => ?_
    have hmem := mem_map_of_mem (f := (Except.ok : _ → Except Fault (List α))) ho
    rw [heq] at hmem
    rcases mem_map.mp hmem with ⟨_, _, ho⟩
    exact (Except.ok.inj ho).symm
  constructor
  · rintro ⟨out, heq, hwindow⟩
    obtain ⟨outF, rest, rfl, hF, hrest⟩ := append_eq_map_iff.mp heq
    obtain ⟨o, outB, rfl, ho, hB⟩ := map_eq_cons_iff.mp hrest
    rw [flatten_append, flatten_cons, hnil _ _ hF, hnil _ _ hB] at hwindow
    rw [← ho, ← hwindow]
    simp
  · rintro rfl
    refine ⟨front.map (fun _ => []) ++ window :: back.map (fun _ => []), by simp, ?_⟩
    simp

/-- What the instances write without an offset. -/
theorem written_spec {required : List Nat} {instances : List (List (List α))}
    (h : List.Forall₂ (fun r chunks => r ≤ chunks.flatten.length) required instances) :
    ∃ out : List (List α),
      (instances.zip required).map (fun e => limitCells e.2 0 e.1) = out.map .ok ∧
      out.flatten.length = required.sum ∧
      List.Forall₂ List.Sublist out (instances.map List.flatten) := by
  induction h with
  | nil => exact ⟨[], rfl, rfl, List.Forall₂.nil⟩
  | @cons r chunks required instances hle _ ih =>
    obtain ⟨out, heq, hlen, hsub⟩ := ih
    refine ⟨chunks.flatten.take r :: out, ?_, ?_, List.Forall₂.cons (take_sublist _ _) hsub⟩
    · rw [zip_cons_cons, map_cons, map_cons, heq, limitCells_zero]
    · rw [flatten_cons, length_append, length_take, sum_cons]
      omega

theorem min_sum_min (count : Nat) (l : List Nat) :
    min count (l.map (min count)).sum = min count l.sum := by
  induction l with
  | nil => rfl
  | cons n l ih =>
    rw [map_cons, sum_cons, sum_cons]
    omega

/-- Without an offset as many cells are written as asked for. -/
theorem execute_total (lim : Option UInt64) :
    ∃ out : List (List α), A.execute lim 0 = out.map .ok ∧
      out.flatten.length = (firstCells lim A.instances.flatten.flatten).length ∧
      List.Forall₂ List.Sublist out (A.instances.map List.flatten) := by
  have havailable : A.instances.map (countCellsInRange · (getCount lim) (0 : UInt64).toNat) =
      (A.instances.map fun chunks => chunks.flatten.length).map (min (getCount lim)) := by
    rw [map_map]
    exact map_congr_left fun chunks _ => countCellsInRange_zero chunks (getCount_le lim)
  obtain ⟨hle, hsum⟩ := requiredCounts_spec (Nat.zero_le (getCount lim))
    (A.instances.map (countCellsInRange · (getCount lim) (0 : UInt64).toNat))
    (by simp [countCellsInRange_le])
  have hfits : List.Forall₂ (fun r chunks => r ≤ chunks.flatten.length)
      (requiredCounts (getCount lim) 0
        (A.instances.map (countCellsInRange · (getCount lim) (0 : UInt64).toNat)))
      A.instances := by
    rw [havailable, map_map, forall₂_map_right_iff] at hle
    rw [havailable, map_map]
    exact hle.imp fun r chunks hr => hr.trans (min_le_right _ _)
  obtain ⟨out, heq, hlen, hsub⟩ := written_spec hfits
  refine ⟨out, heq, ?_, hsub⟩
  rw [hlen, hsum, havailable, Nat.sub_zero, min_sum_min, firstCells_eq lim A.few]
  simp [Function.comp_def]

/-- Limit returns the window asked for exactly if, where one instance has all cells,
there is nothing to skip or the window lies in the first chunk. -/
theorem limit_exact_iff (A : Input α) (lim : Option UInt64) (offset : UInt64) :
    A.Exact lim offset ↔ A.Aligned lim offset := by
  have halone : ∀ front chunks back, A.instances = front ++ chunks :: back →
      (∀ other ∈ front ++ back, other.flatten = []) →
      ((∃ out : List (List α), A.execute lim offset = out.map .ok ∧
        out.flatten = firstCells lim (chunks.flatten.drop offset.toNat)) ↔
        Limit.Aligned (getCount lim) offset.toNat chunks) := by
    intro front chunks back h hothers
    have hdistinct := A.distinct
    have hfew := A.few
    rw [h, flatten_append, flatten_cons, flatten_append, flatten_append] at hdistinct hfew
    rw [length_append, length_append] at hfew
    rw [execute_alone A lim offset h hothers, exists_out_iff,
      firstCells_eq lim (by rw [length_drop]; omega),
      limitCells_eq_iff (getCount_le lim) (by omega)
        (nodup_append.mp (nodup_append.mp hdistinct).2.1).1]
  constructor
  · intro hexact front chunks back h hothers
    exact (halone front chunks back h hothers).mp (hexact.alone front chunks back h hothers)
  · intro haligned
    refine ⟨fun front chunks back h hothers => ?_, ?_⟩
    · exact (halone front chunks back h hothers).mpr (haligned front chunks back h hothers)
    · rintro rfl
      exact execute_total A lim

/-- Two chunks of one cell each, on one instance. -/
def twoChunks : Input Nat where
  instances := [[[0], [1]]]
  distinct := by decide
  few := by decide

/-- The window from the second cell on is empty. -/
theorem limit_skips_in_every_chunk : ¬twoChunks.Exact (some 1) 1 := by
  intro h
  obtain ⟨out, hout, hwindow⟩ := h.alone [] [[0], [1]] [] rfl (by simp)
  have hexecute : twoChunks.execute (some 1) 1 = [[]].map .ok := by decide
  rw [hexecute] at hout
  rw [← map_injective_iff.mpr (fun _ _ => Except.ok.inj) hout] at hwindow
  cases hwindow

end SciDB.Operators.Limit
