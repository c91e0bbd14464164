import SciDB.Distribution.Enumeration
import SciDB.Distribution.Positions
import SciDB.Lib.Iteration
import SciDB.Lib.Simulation
import SciDB.Lib.SortedMerge
import SciDB.Operators.SubArray

/-!
# The merge operator

`MergeArray` (`src/query/ops/merge/MergeArray.cpp`) shows the cells of several arrays
of one shape as one array; a cell that more than one of them has is taken from the
first of these.  Its iterators over chunks and over the cells of a chunk keep one
iterator for each input.  Moving on brings all of them behind the current position and
takes the first one with the lowest position.

`MergeArrayIterator::setPosition` moves the iterators of all inputs;
`MergeChunkIterator::setPosition` stops at the first input with a cell at the position
and leaves the iterators behind it where they are, also when they are already past
the position.

Main results:

- Theorem {lit}`visits_fresh`: from the start, the union of the inputs is visited.
- Theorem {lit}`visits_remaining`: wherever the array iterator is, it visits the union from
  there on.
- Theorem {lit}`visits_setPosition`: what a chunk iterator visits behind a position.
- Theorem {lit}`merge_exact_iff`: the iterators are consistent exactly if inside of a chunk a
  later cell never comes from a later array.
-/

namespace SciDB.Operators.Merge

open SciDB.Distribution OrderedMap SortedMerge Iteration Runs Simulation List OrdMap
open OrdMap (entries)

/-! ## Merging iterators -/

/-- `SCIDB_LE_NO_CURRENT_ELEMENT`, or a `setPosition` that returned `false`. -/
inductive Fault where
  | noCurrentElement
  | refused
  deriving DecidableEq, Repr

section Merging

variable {κ α : Type*} [LinearOrder κ]

/-- The iterators over the inputs, each with the entries from its position on, and the
current one of them. -/
structure Merging (κ α : Type*) where
  iterators : List (List (κ × α))
  currIterator : Option Nat

variable (iterators : List (List (κ × α)))

/-- `iterators[i]->getPosition()`, unless the iterator is at its end. -/
def position (i : Nat) : Option κ :=
  (iterators[i]?.bind List.head?).map Prod.fst

/-- One turn of the loops that look for the lowest position. -/
def lower (currIterator : Option Nat) (i : Nat) : Option Nat :=
  match position iterators i with
  | none => currIterator
  | some pos =>
    match currIterator.bind (position iterators) with
    | none => some i
    | some currPos => if pos < currPos then some i else currIterator

def lowest : Option Nat :=
  (List.range iterators.length).foldl (lower iterators) none

/-- The inner loops of `operator++` move the iterators behind a position. -/
def fastForward (currPos : κ) : List (List (κ × α)) :=
  iterators.map fun it => it.dropWhile fun e => decide (e.1 ≤ currPos)

/-- The state after the loop over the iterators. -/
def fresh : Merging κ α where
  iterators := iterators
  currIterator := lowest iterators

variable (inputs : List (OrdMap κ α))

/-- The constructors and `restart` -/
def start : Merging κ α :=
  fresh (inputs.map entries)

namespace Merging

/-- The position and the item of the current iterator; there are none when `end()` is
true. -/
def current (s : Merging κ α) : Option (κ × α) :=
  s.currIterator.bind fun i => s.iterators[i]?.bind List.head?

/-- `operator++` -/
def next (s : Merging κ α) : Except Fault (Merging κ α) :=
  match s.current with
  | none => .error .noCurrentElement
  | some (currPos, _) =>
    .ok (fresh (fastForward s.iterators currPos))

end Merging

/-- The loop of `MergeChunkIterator::setPosition` -/
def setFirst (pos : κ) : List (OrdMap κ α) → List (List (κ × α)) →
    List (List (κ × α)) × Option Nat
  | input :: inputs, _ :: iterators =>
    if (input.get pos).isSome then (input.seek pos :: iterators, some 0)
    else
      let r := setFirst pos inputs iterators
      (input.entries :: r.1, r.2.map (· + 1))
  | _, iterators => (iterators, none)

/-- `MergeChunkIterator::setPosition`, when it succeeds. -/
def setPosition (pos : κ) (s : Merging κ α) :
    Except Fault (Merging κ α) :=
  let r := setFirst pos inputs s.iterators
  if r.2.isSome then .ok { iterators := r.1, currIterator := r.2 } else .error .refused

/-- The calls on a chunk iterator. -/
inductive Call (κ : Type*) where
  | restart
  | setPosition (pos : κ)
  | next

def call (s : Merging κ α) : Call κ → Except Fault (Merging κ α)
  | .restart => .ok (start inputs)
  | .setPosition pos => setPosition inputs pos s
  | .next => s.next

end Merging

open Merging (current)

/-! ## The array iterator -/

/-- The non-empty cells of a chunk of one attribute; its iterators visit these and
`setPosition` succeeds for them. -/
abbrev Chunk (V : Type) := OrdMap Coordinates V

/-- One attribute of an emptyable array.  The chunks of all attributes are at the same
positions. -/
structure EmptyableArray (dims : List DimensionDesc) (V : Type) where
  chunks : OrdMap Coordinates (Chunk V)
  isChunkPosition : ∀ c ∈ chunks.entries, IsChunkPosition dims c.1
  cells_in : ∀ c ∈ chunks.entries, ∀ e ∈ c.2.entries, getChunkPositionFor dims e.1 = c.1

namespace EmptyableArray

variable {dims : List DimensionDesc} {V : Type}

/-- The value of the cell at a position. -/
def cell (a : EmptyableArray dims V) (pos : Coordinates) : Option V :=
  (a.chunks.get (getChunkPositionFor dims pos)).bind fun c => c.get pos

end EmptyableArray

variable {dims : List DimensionDesc} {V : Type} {β γ : Type*} {pos : Coordinates} {l : List β}

/-- `MergeArrayIterator`; `currentChunk` are the input chunks of the chunk that
`getChunk` has handed out.  A single one of them is handed out itself, and the merging
iterator over it moves as its own. -/
structure ArrayIterator (V : Type) where
  merging : Merging Coordinates (Chunk V)
  currentChunk : Option (List (Chunk V))

/-- The chunks of the inputs. -/
def inputs (arrays : List (EmptyableArray dims V)) : List (OrdMap Coordinates (Chunk V)) :=
  arrays.map EmptyableArray.chunks

/-- One turn of the loop of `getChunk` over the iterators behind the current one: a
chunk at the current position is taken if it has a cell, and skipped otherwise. -/
def fetch (currPos : Coordinates) (it : List (Coordinates × Chunk V)) :
    List (Coordinates × Chunk V) × Option (Chunk V) :=
  match it with
  | [] => ([], none)
  | e :: rest =>
    if e.1 = currPos then
      if e.2.entries.isEmpty then (rest, none) else (e :: rest, some e.2)
    else (e :: rest, none)

namespace ArrayIterator

/-- The constructor and `restart` -/
def start (arrays : List (EmptyableArray dims V)) : ArrayIterator V where
  merging := Merge.start (inputs arrays)
  currentChunk := none

variable (s : ArrayIterator V)

/-- `getPosition`, unless `end()` is true. -/
def position : Option Coordinates :=
  s.merging.current.map Prod.fst

/-- One turn of the loop of `setPosition`: an iterator without the chunk is restarted. -/
def moveTo (c : Coordinates) (m : OrdMap Coordinates (Chunk V)) : List (Coordinates × Chunk V) :=
  if (m.get c).isSome then m.seek c else m.entries

/-- `setPosition`, when it succeeds. -/
def setPosition (arrays : List (EmptyableArray dims V)) (pos : Coordinates) :
    Except Fault (ArrayIterator V) :=
  let c := getChunkPositionFor dims pos
  let found := (inputs arrays).findIdx? fun m => (m.get c).isSome
  if found.isSome then
    .ok {
      merging := { iterators := (inputs arrays).map (moveTo c), currIterator := found }
      currentChunk := none }
  else .error .refused

/-- `operator++` -/
def next : Except Fault (ArrayIterator V) := do
  let merging ← s.merging.next
  return { merging := merging, currentChunk := none }

/-- The part of `getChunk` that looks at all iterators. -/
def fetchAll (i : Nat) (currPos : Coordinates) (currChunk : Chunk V) :
    List (Chunk V) × ArrayIterator V :=
  let later := (s.merging.iterators.drop (i + 1)).map (fetch currPos)
  let inputChunks := currChunk :: later.filterMap Prod.snd
  (inputChunks, {
    merging := {
      iterators := s.merging.iterators.take (i + 1) ++ later.map Prod.fst
      currIterator := some i }
    currentChunk := some inputChunks })

/-- `getChunk` -/
def getChunk : Except Fault (List (Chunk V) × ArrayIterator V) :=
  match s.currentChunk with
  | some inputChunks => .ok (inputChunks, s)
  | none =>
    match s.merging.currIterator, s.merging.current with
    | some i, some (currPos, currChunk) => .ok (s.fetchAll i currPos currChunk)
    | _, _ => .error .noCurrentElement

/-- The position and the input chunks of the current chunk. -/
def visit : Option (Coordinates × List (Chunk V)) :=
  match s.position, s.getChunk with
  | some pos, .ok (inputChunks, _) => some (pos, inputChunks)
  | _, _ => none

/-- Read the current chunk and move on. -/
def step : Except Fault (ArrayIterator V) := do
  let r ← s.getChunk
  r.2.next

end ArrayIterator

/-- The calls on an array iterator. -/
inductive ArrayCall where
  | restart
  | setPosition (pos : Coordinates)
  | next
  | getChunk

def arrayCall (arrays : List (EmptyableArray dims V)) (s : ArrayIterator V) :
    ArrayCall → Except Fault (ArrayIterator V)
  | .restart => .ok (ArrayIterator.start arrays)
  | .setPosition pos => ArrayIterator.setPosition arrays pos
  | .next => s.next
  | .getChunk => s.getChunk.map Prod.snd

/-! ## What the iteration is to visit -/

/-- The chunks of the union of the arrays with their cells. -/
structure IsUnion (arrays : List (EmptyableArray dims V))
    (out : List (Coordinates × List (Coordinates × V))) : Prop where
  sorted : Sorted out
  cells_sorted : ∀ c ∈ out, Sorted c.2
  cells_in : ∀ c ∈ out, ∀ e ∈ c.2, getChunkPositionFor dims e.1 = c.1
  mem_positions : ∀ pos, pos ∈ out.map Prod.fst ↔ ∃ a ∈ arrays, (a.chunks.get pos).isSome
  cell : ∀ pos v, (∃ c ∈ out, (pos, v) ∈ c.2) ↔ arrays.findSome? (fun a => a.cell pos) = some v

/-- From a state on, an array iterator visits the chunks, and an iterator over each of
them its cells; whether or not a chunk is read before moving on makes no difference. -/
def Iterates (s : ArrayIterator V) (out : List (Coordinates × List (Coordinates × V))) : Prop :=
  Visits ArrayIterator.position ArrayIterator.next s (out.map Prod.fst) ∧
    ∃ chunks, Visits ArrayIterator.visit ArrayIterator.step s chunks ∧
      List.Forall₂ (fun c o => c.1 = o.1 ∧ Visits current Merging.next (start c.2) o.2) chunks out

/-- The iterators are consistent: the array iterator visits the union; after every
sequence of calls that ends with `setPosition` it visits the union from there on; and so
does every iterator over a chunk that is handed out. -/
def Exact (arrays : List (EmptyableArray dims V)) : Prop :=
  ∃ out, IsUnion arrays out ∧ Iterates (ArrayIterator.start arrays) out ∧
    (∀ calls s pos s', runM (arrayCall arrays) (.start arrays) calls = .ok s →
      arrayCall arrays s (.setPosition pos) = .ok s' →
      Iterates s' (out.filter fun c => isFrom (getChunkPositionFor dims pos) c.1)) ∧
    ∀ calls s inputChunks s' c cells, runM (arrayCall arrays) (.start arrays) calls = .ok s →
      s.getChunk = .ok (inputChunks, s') → s.position = some c → (c, cells) ∈ out →
      ∀ chunkCalls t pos t', runM (call inputChunks) (start inputChunks) chunkCalls = .ok t →
        call inputChunks t (.setPosition pos) = .ok t' →
        Visits current Merging.next t' (cells.filter fun e => isFrom pos e.1)

/-- Inside of a chunk, a later cell never comes from a later array: if one of the first
arrays has a cell, one of these has each later cell of its chunk. -/
def Descending (arrays : List (EmptyableArray dims V)) : Prop :=
  ∀ front, front <+: arrays → ∀ p q, p < q →
    getChunkPositionFor dims p = getChunkPositionFor dims q →
    (∃ a ∈ front, (a.cell p).isSome) → (∃ a ∈ arrays, (a.cell q).isSome) →
    ∃ a ∈ front, (a.cell q).isSome

/-! ## The lowest position -/

section Lowest

variable {κ α : Type*} [LinearOrder κ] {its : List (List (κ × α))} {i : Nat} {s : Merging κ α} {e : κ × α}

omit [LinearOrder κ] in
theorem position_eq_some {p : κ} :
    position its i = some p ↔ ∃ e rest, its[i]? = some (e :: rest) ∧ e.1 = p := by
  unfold position
  cases its[i]? with
  | none => simp
  | some it => cases it <;> simp

omit [LinearOrder κ] in
theorem position_eq_none (h : position its i = none) {it : List (κ × α)} (hi : its[i]? = some it) :
    it = [] := by
  cases it with
  | nil => rfl
  | cons e rest =>
    rw [position_eq_some.mpr ⟨e, rest, hi, rfl⟩] at h
    cases h

/-- What the loop has found after looking at the first iterators: the first one with the
lowest position. -/
def IsLowest (its : List (List (κ × α))) (n : Nat) : Option Nat → Prop
  | none => ∀ i < n, position its i = none
  | some j => j < n ∧ ∃ p, position its j = some p ∧
    ∀ i < n, ∀ q, position its i = some q → p ≤ q ∧ (i < j → p < q)

theorem isLowest_lower {n : Nat} {r : Option Nat} (h : IsLowest its n r) :
    IsLowest its (n + 1) (lower its r n) := by
  rw [lower]
  cases hn : position its n with
  | none =>
    cases r with
    | none => exact Nat.forall_lt_succ_right.mpr ⟨h, hn⟩
    | some j =>
      rcases h with ⟨hj, p, hp, hle⟩
      exact ⟨by omega, p, hp, Nat.forall_lt_succ_right.mpr ⟨hle, by simp [hn]⟩⟩
  | some pn =>
    cases r with
    | none =>
      refine ⟨Nat.lt_succ_self n, pn, hn,
        Nat.forall_lt_succ_right.mpr ⟨fun i hi => ?_, by simp [hn]⟩⟩
      simp [h i hi]
    | some j =>
      rcases h with ⟨hj, p, hp, hle⟩
      rw [Option.bind_some, hp]
      dsimp only
      split
      · next hlt =>
          refine ⟨Nat.lt_succ_self n, pn, hn,
            Nat.forall_lt_succ_right.mpr ⟨fun i hi q hq => ?_, by simp [hn]⟩⟩
          have := hlt.trans_le (hle i hi q hq).1
          exact ⟨this.le, fun _ => this⟩
      · next hlt =>
          refine ⟨by omega, p, hp, Nat.forall_lt_succ_right.mpr ⟨hle, fun q hq => ?_⟩⟩
          rw [hn, Option.some.injEq] at hq
          exact ⟨hq ▸ not_lt.mp hlt, fun hij => absurd hij (by omega)⟩

theorem isLowest_lowest (its : List (List (κ × α))) : IsLowest its its.length (lowest its) := by
  have hloop : ∀ n, IsLowest its n ((List.range n).foldl (lower its) none) := by
    intro n
    induction n with
    | zero => exact fun i hi => absurd hi (Nat.not_lt_zero i)
    | succ n ih =>
      rw [range_succ, foldl_append]
      exact isLowest_lower ih
  exact hloop its.length

omit [LinearOrder κ] in
theorem exists_split {x : β} (h : l[i]? = some x) :
    ∃ front back, l = front ++ x :: back ∧ i = front.length := by
  rcases List.getElem?_eq_some_iff.mp h with ⟨hi, rfl⟩
  exact ⟨l.take i, l.drop (i + 1), by simp, by simp [hi.le]⟩

/-- After the loop, either all iterators are at their ends, or the current one has the
first entry of the union, and no iterator before it is at the same position. -/
theorem lowest_cases (h : ∀ it ∈ its, Sorted it) :
    (lowest its = none ∧ ∀ it ∈ its, it = []) ∨
      ∃ front e rest back, its = front ++ (e :: rest) :: back ∧ lowest its = some front.length ∧
        (∀ it ∈ its, ∀ f ∈ it, e.1 ≤ f.1) ∧ (∀ it ∈ front, ∀ f ∈ it, e.1 < f.1) ∧
        unionAll its = e :: unionAll (fastForward its e.1) := by
  have hlow := isLowest_lowest its
  cases hr : lowest its with
  | none =>
    left
    rw [hr] at hlow
    refine ⟨rfl, fun it hit => ?_⟩
    rcases mem_iff_getElem?.mp hit with ⟨i, hi⟩
    exact position_eq_none (hlow i (List.getElem?_eq_some_iff.mp hi).1) hi
  | some j =>
    right
    rw [hr] at hlow
    rcases hlow with ⟨-, p, hp, hle⟩
    rcases position_eq_some.mp hp with ⟨e, rest, he, rfl⟩
    have hbound : ∀ i it, its[i]? = some it → ∀ f ∈ it, e.1 ≤ f.1 ∧ (i < j → e.1 < f.1) := by
      intro i it hi f hf
      cases it with
      | nil => cases hf
      | cons g r =>
        have hgf := (h _ (mem_of_getElem? hi)).head_le f hf
        rcases hle i (List.getElem?_eq_some_iff.mp hi).1 g.1
          (position_eq_some.mpr ⟨g, r, hi, rfl⟩) with ⟨hle, hlt⟩
        exact ⟨hle.trans hgf, fun hij => (hlt hij).trans_le hgf⟩
    have hall : ∀ it ∈ its, ∀ f ∈ it, e.1 ≤ f.1 := by
      intro it hit f hf
      rcases mem_iff_getElem?.mp hit with ⟨i, hi⟩
      exact (hbound i it hi f hf).1
    rcases exists_split he with ⟨front, back, rfl, rfl⟩
    have hfront : ∀ it ∈ front, ∀ f ∈ it, e.1 < f.1 := by
      intro it hit f hf
      rcases mem_iff_getElem.mp hit with ⟨i, hi, rfl⟩
      exact (hbound i _ (by rw [getElem?_append_left hi, getElem?_eq_getElem]) f hf).2 hi
    exact ⟨front, e, rest, back, rfl, rfl, hall, hfront, unionAll_least h hall hfront⟩

omit [LinearOrder κ] in
theorem current_of_drop {rest : List (κ × α)}
    (hcurr : s.currIterator = some i) (hdrop : s.iterators.drop i = (e :: rest) :: its) :
    s.current = some e := by
  have hget : s.iterators[i]? = some (e :: rest) := by
    rw [← head?_drop, hdrop, head?_cons]
  rw [current, hcurr, Option.bind_some, hget]
  rfl

theorem fastForward_eq (h : ∀ it ∈ its, Sorted it) (k : κ) :
    fastForward its k = its.map fun it => it.filter fun e => isAfter k e.1 :=
  map_congr_left fun it hit => (h it hit).dropWhile_le k

theorem sorted_fastForward (h : ∀ it ∈ its, Sorted it) (k : κ) :
    ∀ it ∈ fastForward its k, Sorted it := by
  intro it hit
  rcases mem_map.mp hit with ⟨it', hit', rfl⟩
  exact (h it' hit').sublist (dropWhile_sublist _)

theorem next_of_current (h : s.current = some e) :
    s.next = .ok (fresh (fastForward s.iterators e.1)) := by
  rw [Merging.next, h]

/-- From the start, the union of the inputs is visited. -/
theorem visits_fresh (h : ∀ it ∈ its, Sorted it) :
    Visits current Merging.next (fresh its) (unionAll its) := by
  apply visits_rest (fun s => (∀ it ∈ s.iterators, Sorted it) ∧ s = fresh s.iterators)
    (fun s => unionAll s.iterators) ?_ ?_ ⟨h, rfl⟩
  · rintro s ⟨hs, hfresh⟩ hnil
    rcases lowest_cases hs with ⟨hlow, -⟩ | ⟨front, e, rest, back, -, -, -, -, hunion⟩
    · rw [hfresh, fresh, hlow]
      rfl
    · rw [hunion] at hnil
      cases hnil
  · rintro s x l ⟨hs, hfresh⟩ hcons
    rcases lowest_cases hs with ⟨-, hnil⟩ | ⟨front, e, rest, back, hsplit, hlow, -, -, hunion⟩
    · rw [unionAll_eq_nil hnil] at hcons
      cases hcons
    · rw [hunion, List.cons.injEq] at hcons
      rcases hcons with ⟨rfl, rfl⟩
      have hcurrent : s.current = some e :=
        current_of_drop (by rw [hfresh]; exact hlow) (by rw [hsplit, drop_left])
      exact ⟨hcurrent, _, next_of_current hcurrent, ⟨sorted_fastForward hs e.1, rfl⟩, rfl⟩

end Lowest

/-! ## The chunk iterator -/

section ChunkIterator

variable {κ α : Type*} [LinearOrder κ] {ms : List (OrdMap κ α)} {its : List (List (κ × α))}

theorem sorted_of_suffix (h : List.Forall₂ (fun m it => it <:+ m.entries) ms its) :
    ∀ it ∈ its, Sorted it := by
  intro it hit
  rcases forall₂_mem h hit with ⟨m, -, hsuffix⟩
  exact m.sorted.sublist hsuffix.sublist

theorem sorted_entries (ms : List (OrdMap κ α)) : ∀ it ∈ ms.map entries, Sorted it := by
  intro it hit
  rcases mem_map.mp hit with ⟨m, -, rfl⟩
  exact m.sorted

variable {pos k : κ} {s s' : Merging κ α} {back front : List (OrdMap κ α)} {m : OrdMap κ α} {x : α}

/-- `setPosition` restarts the iterators in front of the first input with the position,
moves the one over it and leaves the others. -/
theorem setFirst_cases (pos : κ) (hlen : ms.length = its.length) :
    ((setFirst pos ms its).2 = none ∧ ∀ m ∈ ms, m.get pos = none) ∨
      ∃ front m back x, ms = front ++ m :: back ∧ (∀ m' ∈ front, m'.get pos = none) ∧
        m.get pos = some x ∧ setFirst pos ms its =
          (front.map entries ++ m.seek pos :: its.drop (front.length + 1), some front.length) := by
  induction ms generalizing its with
  | nil =>
    left
    rw [setFirst]
    · exact ⟨rfl, by simp⟩
    · intro _ _ _ _ hnil
      cases hnil
  | cons m ms ih =>
    cases its with
    | nil => cases hlen
    | cons it its =>
      rw [setFirst]
      cases hm : m.get pos with
      | some x => exact .inr ⟨[], m, ms, x, rfl, by simp, hm, rfl⟩
      | none =>
        rcases ih (Nat.succ.inj hlen) with ⟨hnone, hall⟩ |
          ⟨front, m', back, x, rfl, hfront, hx, heq⟩
        · exact .inl ⟨Option.map_eq_none_iff.mpr hnone, forall_mem_cons.mpr ⟨hm, hall⟩⟩
        · refine .inr ⟨m :: front, m', back, x, rfl, forall_mem_cons.mpr ⟨hm, hfront⟩, hx, ?_⟩
          rw [heq]
          rfl

theorem setFirst_suffix (pos : κ) (h : List.Forall₂ (fun m it => it <:+ m.entries) ms its) :
    List.Forall₂ (fun m it => it <:+ m.entries) ms (setFirst pos ms its).1 := by
  induction h with
  | nil => exact .nil
  | @cons m it ms its hm hms ih =>
    rw [setFirst]
    split
    · exact .cons (m.seek_suffix pos) hms
    · exact .cons suffix_rfl ih

/-- The iterators of every state that can be reached are somewhere in their inputs. -/
def Within (ms : List (OrdMap κ α)) (s : Merging κ α) : Prop :=
  List.Forall₂ (fun m it => it <:+ m.entries) ms s.iterators

theorem start_within (ms : List (OrdMap κ α)) : Within ms (start ms) := by
  rw [Within, start, fresh, forall₂_map_right_iff, forall₂_same]
  exact fun m _ => suffix_rfl

theorem call_within {c : Call κ} (hs : Within ms s) (h : call ms s c = .ok s') : Within ms s' := by
  cases c with
  | restart =>
    cases h
    exact start_within ms
  | setPosition pos =>
    rw [call, setPosition] at h
    split at h
    · cases h
      exact setFirst_suffix pos hs
    · cases h
  | next =>
    rw [call, Merging.next] at h
    split at h
    · cases h
    · cases h
      rw [Within, fresh, fastForward, forall₂_map_right_iff]
      exact hs.imp fun m it hit => (dropWhile_suffix _).trans hit

/-- What the iterators have after a `setPosition`, up to the position: those in front of
the chosen one and this one all entries, the others what they had left. -/
def kept (front : List (OrdMap κ α)) (m : OrdMap κ α) (its : List (List (κ × α))) :
    List (List (κ × α)) :=
  (front ++ [m]).map entries ++ its.drop (front.length + 1)

theorem sorted_kept (front : List (OrdMap κ α)) (m : OrdMap κ α) (h : ∀ it ∈ its, Sorted it) :
    ∀ it ∈ kept front m its, Sorted it :=
  forall_mem_append.mpr ⟨sorted_entries _, fun it hit => h it (mem_of_mem_drop hit)⟩

/-- An iterator behind the chosen one is somewhere in its input. -/
theorem mem_drop_within (h : Within (front ++ m :: back) s) {it : List (κ × α)}
    (hit : it ∈ s.iterators.drop (front.length + 1)) : ∃ m' ∈ back, it <:+ m'.entries := by
  have hrest := forall₂_drop (front.length + 1) h
  rw [drop_append, drop_of_length_le (Nat.le_succ _), Nat.add_sub_cancel_left] at hrest
  exact forall₂_mem hrest hit

/-- What a chunk iterator visits after a `setPosition`. -/
theorem visits_setPosition (hs : Within ms s)
    (h : setPosition ms pos s = .ok s') :
    ∃ front m back x, ms = front ++ m :: back ∧ (∀ m' ∈ front, m'.get pos = none) ∧
      m.get pos = some x ∧
      Visits current Merging.next s'
        ((pos, x) :: (unionAll (kept front m s.iterators)).filter fun e => isAfter pos e.1) := by
  have hsorted := sorted_of_suffix (setFirst_suffix pos hs)
  rw [setPosition] at h
  rcases setFirst_cases pos hs.length_eq with ⟨hnone, -⟩ | ⟨front, m, back, x, rfl, hfront, hx, heq⟩
  · rw [hnone] at h
    cases h
  · rw [heq, if_pos Option.isSome_some, Except.ok.injEq] at h
    rw [heq] at hsorted
    have hcurrent : s'.current = some (pos, x) := by
      apply current_of_drop (by rw [← h])
      rw [← h, drop_left' (length_map _), seek_of_get hx]
    have hunion : (unionAll (kept front m s.iterators)).filter (fun e => isAfter pos e.1) =
        unionAll (fastForward s'.iterators pos) := by
      have hseek : (m.seek pos).filter (fun e => isAfter pos e.1) =
          m.entries.filter fun e => isAfter pos e.1 := filter_gt_seek pos
      rw [fastForward_eq (h ▸ hsorted), ← h,
        ← unionAll_filter (sorted_kept front m (sorted_of_suffix hs))]
      simp [kept, hseek]
    refine ⟨front, m, back, x, rfl, hfront, hx, .more hcurrent (next_of_current hcurrent) ?_⟩
    rw [hunion]
    exact visits_fresh (sorted_fastForward (h ▸ hsorted) pos)

/-- A later key is never first held by a later member of the list. -/
def Ordered {β : Type*} (hold : β → κ → Prop) (l : List β) : Prop :=
  ∀ front, front <+: l → ∀ p q, p < q → (∃ b ∈ front, hold b p) → (∃ b ∈ l, hold b q) →
    ∃ b ∈ front, hold b q

/-- A chunk has a cell at the position. -/
def Holds (m : OrdMap κ α) (pos : κ) : Prop :=
  (m.get pos).isSome

/-- Whatever the calls before, a chunk iterator visits the union from a position on. -/
def Consistent (ms : List (OrdMap κ α)) : Prop :=
  ∀ calls s pos s', runM (call ms) (start ms) calls = .ok s →
    call ms s (.setPosition pos) = .ok s' →
    Visits current Merging.next s' ((unionAll (ms.map entries)).filter fun e => isFrom pos e.1)

theorem reachable_within {calls : List (Call κ)} (h : runM (call ms) (start ms) calls = .ok s) :
    Within ms s :=
  runM_preserves (fun _ _ _ hs hc => call_within hs hc) (start_within ms) h

theorem mem_unionAll_iff :
    (k, x) ∈ unionAll (ms.map entries) ↔ ms.findSome? (fun m => m.get k) = some x := by
  have hlookup : (unionAll (ms.map entries)).lookup k = ms.findSome? fun m => m.get k := by
    rw [lookup_unionAll (sorted_entries ms), findSome?_map]
    rfl
  rw [← hlookup]
  exact ⟨lookup_of_mem (sorted_unionAll (sorted_entries ms)), mem_of_lookup⟩

theorem mem_keys_unionAll : k ∈ (unionAll (ms.map entries)).map Prod.fst ↔ ∃ m ∈ ms, Holds m k := by
  simp [mem_map, Prod.exists, exists_and_right, exists_eq_right, mem_unionAll_iff, ← Option.isSome_iff_exists, Holds]

/-- The union from a position on that one of the inputs has. -/
theorem filter_ge_unionAll (hfront : ∀ m' ∈ front, m'.get pos = none) (hx : m.get pos = some x) :
    (unionAll ((front ++ m :: back).map entries)).filter (fun e => isFrom pos e.1) =
      (pos, x) :: (unionAll ((front ++ m :: back).map entries)).filter
        fun e => isAfter pos e.1 := by
  have hsorted := sorted_unionAll (sorted_entries (front ++ m :: back))
  have hlookup : (unionAll ((front ++ m :: back).map entries)).lookup pos = some x := by
    rw [lookup_unionAll (sorted_entries _), findSome?_eq_some_iff]
    refine ⟨front.map entries, m.entries, back.map entries, by simp, hx, ?_⟩
    intro it hit
    rcases mem_map.mp hit with ⟨m', hm', rfl⟩
    exact hfront m' hm'
  exact hsorted.filter_of_lookup hlookup

/-- If later cells are never in later inputs, the iterators that were left alone have
nothing to add. -/
theorem lookup_kept (h : Ordered Holds (front ++ m :: back)) (hs : Within (front ++ m :: back) s)
    (hpos : Holds m pos) (hk : pos < k) :
    (kept front m s.iterators).findSome? (fun it => it.lookup k) =
      ((front ++ m :: back).map entries).findSome? (fun it => it.lookup k) := by
  have hsplit : (front ++ m :: back).map entries =
      (front ++ [m]).map entries ++ back.map entries := by simp
  rw [kept, hsplit, findSome?_append, findSome?_append]
  cases hfind : ((front ++ [m]).map entries).findSome? (fun it => it.lookup k) with
  | some x => rfl
  | none =>
    have hback : ∀ m' ∈ back, m'.get k = none := by
      intro m' hm'
      by_contra hne
      rcases h (front ++ [m]) ⟨back, by simp⟩ pos k hk ⟨m, by simp, hpos⟩
        ⟨m', by simp [hm'], Option.isSome_iff_ne_none.mpr hne⟩ with ⟨m'', hm'', hholds⟩
      rw [Holds, OrdMap.get, findSome?_eq_none_iff.mp hfind _ (mem_map_of_mem hm'')] at hholds
      cases hholds
    rw [Option.none_or, Option.none_or, findSome?_eq_none_iff.mpr, findSome?_eq_none_iff.mpr]
    · intro it hit
      rcases mem_map.mp hit with ⟨m', hm', rfl⟩
      exact hback m' hm'
    · intro it hit
      rcases mem_drop_within hs hit with ⟨m', hm', hsuffix⟩
      rw [lookup_eq_none_iff]
      intro e he
      exact lookup_eq_none_iff.mp (hback m' hm') e (hsuffix.subset he)

theorem consistent_of_ordered (h : Ordered Holds ms) : Consistent ms := by
  intro calls s pos s' hrun hset
  have hs := reachable_within hrun
  rcases visits_setPosition hs hset with ⟨front, m, back, x, rfl, hfront, hx, hvisits⟩
  have hsorted := sorted_unionAll (sorted_entries (front ++ m :: back))
  have hkept := sorted_unionAll (sorted_kept front m (sorted_of_suffix hs))
  suffices heq : (unionAll (kept front m s.iterators)).filter (fun e => isAfter pos e.1) =
      (unionAll ((front ++ m :: back).map entries)).filter (fun e => isAfter pos e.1) by
    rw [filter_ge_unionAll hfront hx, ← heq]
    exact hvisits
  apply (hkept.sublist filter_sublist).ext_lookup (hsorted.sublist filter_sublist)
  intro k
  rw [lookup_filter hsorted, lookup_filter hkept]
  by_cases hk : pos < k
  · rw [lookup_unionAll (sorted_kept front m (sorted_of_suffix hs)),
      lookup_unionAll (sorted_entries _),
      lookup_kept h hs (by simp [Holds, hx]) hk]
  · rw [if_neg (by simpa using hk), if_neg (by simpa using hk)]

/-- A run to the end leaves all iterators at their ends. -/
theorem exists_exhausted (ms : List (OrdMap κ α)) :
    ∃ calls s, runM (call ms) (start ms) calls = .ok s ∧ ∀ it ∈ s.iterators, it = [] := by
  have hend := (visits_fresh (sorted_entries ms)).reaches_end
    (fun s => (∃ calls, runM (call ms) (start ms) calls = .ok s) ∧
      ∃ its, (∀ it ∈ its, Sorted it) ∧ s = fresh its)
    ⟨⟨[], rfl⟩, _, sorted_entries ms, rfl⟩ ?_
  · rcases hend with ⟨s, ⟨⟨calls, hrun⟩, its, hsorted, rfl⟩, hnone⟩
    refine ⟨calls, fresh its, hrun, ?_⟩
    rcases lowest_cases hsorted with ⟨-, hnil⟩ | ⟨front, e, rest, back, hsplit, hlow, -⟩
    · exact hnil
    · rw [current_of_drop hlow (by rw [fresh, hsplit, drop_left])] at hnone
      cases hnone
  · rintro s s' ⟨⟨calls, hrun⟩, its, hsorted, rfl⟩ hnext
    refine ⟨⟨calls ++ [.next], (runM_concat hrun .next).trans hnext⟩, ?_⟩
    rw [Merging.next] at hnext
    split at hnext
    · cases hnext
    · cases hnext
      exact ⟨_, sorted_fastForward hsorted _, rfl⟩

/-- After a run to the end only the inputs up to the first one with the position are
visited. -/
theorem ordered_of_consistent (h : Consistent ms) : Ordered Holds ms := by
  intro first hfirst p q hpq hp hq
  rcases exists_exhausted ms with ⟨calls, s, hrun, hnil⟩
  have hs := reachable_within hrun
  have hset : ∃ s', setPosition ms p s = .ok s' := by
    rcases setFirst_cases p hs.length_eq with ⟨-, hnone⟩ | ⟨front, m, back, x, -, -, -, heq⟩
    · rcases hp with ⟨m, hm, hget⟩
      rw [Holds, hnone m (hfirst.subset hm)] at hget
      cases hget
    · exact ⟨_, by rw [setPosition, heq, if_pos Option.isSome_some]⟩
  rcases hset with ⟨s', hset⟩
  rcases visits_setPosition hs hset with ⟨front, m, back, x, rfl, hfront, hx, hvisits⟩
  have heq := hvisits.unique (h calls s p s' hrun hset)
  have hreached : ∃ m' ∈ front ++ [m], Holds m' q := by
    have hmem : q ∈ ((unionAll ((front ++ m :: back).map entries)).filter
        fun e => isFrom p e.1).map Prod.fst := by
      rcases mem_map.mp (mem_keys_unionAll.mpr hq) with ⟨e, he, rfl⟩
      exact mem_map_of_mem (mem_filter.mpr ⟨he, by simpa using hpq.le⟩)
    rw [← heq, map_cons, mem_cons] at hmem
    rcases hmem with hmem | hmem
    · exact absurd hmem hpq.ne'
    · rcases mem_map.mp hmem with ⟨e, he, rfl⟩
      rcases mem_unionAll (mem_of_mem_filter he) with ⟨it, hit, hemem⟩
      rcases mem_append.mp hit with hit | hit
      · rcases mem_map.mp hit with ⟨m', hm', rfl⟩
        exact ⟨m', hm', by rw [Holds, mem_entries.mp hemem, Option.isSome_some]⟩
      · rw [hnil it (mem_of_mem_drop hit)] at hemem
        cases hemem
  have hprefix : front ++ [m] <+: first := by
    have hchosen : front ++ [m] <+: front ++ m :: back := ⟨back, by simp⟩
    rcases prefix_or_prefix_of_prefix hfirst hchosen with hle | hle
    · rcases prefix_concat_iff.mp hle with rfl | hle
      · exact prefix_rfl
      · rcases hp with ⟨m', hm', hget⟩
        rw [Holds, hfront m' (hle.subset hm')] at hget
        cases hget
    · exact hle
  rcases hreached with ⟨m', hm', hholds⟩
  exact ⟨m', hprefix.subset hm', hholds⟩

end ChunkIterator

/-! ## The array iterator visits the union -/

section ArrayIterator

variable {ms : List (OrdMap Coordinates (Chunk V))} {s : ArrayIterator V} {k : Coordinates}
  {i : Nat}

variable (ms)

/-- The input chunks of a chunk of the output: the first one at the position and those
behind it that have cells. -/
def chunksAt (k : Coordinates) : List (Chunk V) :=
  match ms.filterMap fun m => m.get k with
  | [] => []
  | c :: cs => c :: cs.filter fun c => !c.entries.isEmpty

/-- The array iterator is at a chunk position: the current iterator is the first one
over an input with a chunk there, all iterators have the later chunks of their inputs,
and until `getChunk` is called those behind the current one have the chunks at the
position in front. -/
structure At (s : ArrayIterator V) (k : Coordinates) :
    Prop where
  sorted : ∀ it ∈ s.merging.iterators, Sorted it
  behind : s.merging.iterators.map (fun it => it.filter fun e => isAfter k e.1) =
    ms.map fun m => m.entries.filter fun e => isAfter k e.1
  chosen : ∃ front m back c rest its, ms = front ++ m :: back ∧
    (∀ m' ∈ front, m'.get k = none) ∧ m.get k = some c ∧
    s.merging.currIterator = some front.length ∧
    s.merging.iterators.drop front.length = ((k, c) :: rest) :: its ∧
    (s.currentChunk = none →
      List.Forall₂ (fun m it => ∀ c, it.head? = some (k, c) ↔ m.get k = some c) back its)
  handed : ∀ cs, s.currentChunk = some cs → cs = chunksAt ms k

/-- The iterator after `restart` or `operator++`, which bring the iterators to those
entries of their inputs that have a property. -/
def freshArray (p : Coordinates → Bool) :
    ArrayIterator V where
  merging := fresh (ms.map fun m => m.entries.filter fun e => p e.1)
  currentChunk := none

variable {ms}

theorem At.current (h : At ms s k) : ∃ c, s.merging.current = some (k, c) := by
  rcases h.chosen with ⟨front, m, back, c, rest, its, -, -, -, hcurr, hdrop, -⟩
  exact ⟨c, current_of_drop hcurr hdrop⟩

theorem At.position (h : At ms s k) : s.position = some k := by
  rcases h.current with ⟨c, hc⟩
  rw [ArrayIterator.position, hc]
  rfl

theorem At.next (h : At ms s k) : s.next = .ok (freshArray ms (isAfter k)) := by
  rcases h.current with ⟨c, hc⟩
  rw [ArrayIterator.next, next_of_current hc, fastForward_eq h.sorted, h.behind]
  rfl

variable (it : List (Coordinates × Chunk V))

theorem fetch_filter :
    (fetch k it).1.filter (fun e => isAfter k e.1) = it.filter fun e => isAfter k e.1 := by
  unfold fetch
  split
  · rfl
  · split
    · rename_i hk
      split
      · rw [filter_cons_of_neg (by simp [hk])]
      · rfl
    · rfl

theorem fetch_suffix : (fetch k it).1 <:+ it := by
  unfold fetch
  split
  · exact suffix_rfl
  · split
    · split
      · exact suffix_cons _ _
      · exact suffix_rfl
    · exact suffix_rfl

variable {m : OrdMap Coordinates (Chunk V)} {back : List (OrdMap Coordinates (Chunk V))}
  {c : Chunk V} {p : Coordinates → Bool} {j : Nat}

/-- What the loop of `getChunk` takes from an iterator that has the chunk at the
position in front. -/
theorem fetch_snd {it : List (Coordinates × Chunk V)}
    (h : ∀ c, it.head? = some (k, c) ↔ m.get k = some c) :
    (fetch k it).2 = (m.get k).filter fun c => !c.entries.isEmpty := by
  have hnone : (∀ c, it.head? ≠ some (k, c)) → m.get k = none := by
    intro hit
    by_contra hne
    rcases Option.ne_none_iff_exists'.mp hne with ⟨c, hc⟩
    exact hit c ((h c).mpr hc)
  unfold fetch
  cases it with
  | nil =>
    rw [hnone (by simp)]
    rfl
  | cons e rest =>
    dsimp only
    by_cases hk : e.1 = k
    · have hget : m.get k = some e.2 := (h e.2).mp (by rw [← hk]; rfl)
      rw [if_pos hk, hget]
      by_cases hempty : e.2.entries.isEmpty
      · rw [if_pos hempty, Option.filter_some, if_neg (by simpa using hempty)]
      · rw [if_neg hempty, Option.filter_some, if_pos (by simpa using hempty)]
    · rw [if_neg hk, hnone (by rintro c ⟨rfl⟩; exact hk rfl)]
      rfl

theorem chunksAt_split {front : List (OrdMap Coordinates (Chunk V))}
    (hfront : ∀ m' ∈ front, m'.get k = none) (hc : m.get k = some c) :
    chunksAt (front ++ m :: back) k =
      c :: back.filterMap fun m => (m.get k).filter fun c => !c.entries.isEmpty := by
  have hnil : front.filterMap (fun m => m.get k) = [] := by
    rw [filterMap_eq_nil_iff]
    exact hfront
  have hcons : (m :: back).filterMap (fun m => m.get k) = c :: back.filterMap fun m => m.get k :=
    filterMap_cons_some hc
  rw [chunksAt, filterMap_append, hnil, nil_append, hcons]
  dsimp only
  rw [filter_filterMap]

/-- The loop of `getChunk` takes the input chunks that have cells. -/
theorem filterMap_fetch {its : List (List (Coordinates × Chunk V))}
    (h : List.Forall₂ (fun m it => ∀ c, it.head? = some (k, c) ↔ m.get k = some c) back its) :
    (its.map (fetch k)).filterMap Prod.snd =
      back.filterMap fun m => (m.get k).filter fun c => !c.entries.isEmpty := by
  induction h with
  | nil => rfl
  | cons hm _ ih =>
    rw [map_cons, filterMap_cons, filterMap_cons, fetch_snd hm, ih]

theorem At.fetchAll (h : At ms s k) (hi : s.merging.currIterator = some i)
    (hchunks : (s.fetchAll i k c).1 = chunksAt ms k) : At ms (s.fetchAll i k c).2 k where
  sorted := by
    intro it hit
    rcases mem_append.mp hit with hit | hit
    · exact h.sorted it (mem_of_mem_take hit)
    · rw [map_map] at hit
      rcases mem_map.mp hit with ⟨it', hit', rfl⟩
      exact (h.sorted it' (mem_of_mem_drop hit')).sublist (fetch_suffix it').sublist
  behind := by
    rw [← h.behind, ArrayIterator.fetchAll, map_append, map_map, map_map]
    have hfetch : (((fun it => it.filter fun e => isAfter k e.1) ∘ Prod.fst) ∘ fetch k) =
        fun it : List (Coordinates × Chunk V) => it.filter fun e => isAfter k e.1 := by
      funext it
      exact fetch_filter it
    rw [hfetch, ← map_append, take_append_drop]
  chosen := by
    rcases h.chosen with ⟨front, m, back, c', rest, its, hms, hfront, hc', hcurr, hdrop, -⟩
    rw [hi, Option.some.injEq] at hcurr
    rw [← hcurr] at hdrop
    have hlt : i < s.merging.iterators.length := by
      have hlen := congrArg List.length hdrop
      rw [length_drop, length_cons] at hlen
      omega
    refine ⟨front, m, back, c', rest,
      ((s.merging.iterators.drop (i + 1)).map (fetch k)).map Prod.fst, hms, hfront, hc', ?_, ?_, ?_⟩
    · rw [← hcurr]
      rfl
    · rw [← hcurr, ArrayIterator.fetchAll, drop_append_of_le_length, drop_take, hdrop,
        Nat.add_sub_cancel_left]
      · rfl
      · rw [length_take]
        omega
    · intro hnone
      cases hnone
  handed := by
    intro cs hcs
    cases hcs
    exact hchunks

/-- `getChunk` hands out the input chunks at the position and stays there. -/
theorem At.getChunk (h : At ms s k) : ∃ s', s.getChunk = .ok (chunksAt ms k, s') ∧ At ms s' k := by
  cases hcached : s.currentChunk with
  | some cs =>
    refine ⟨s, ?_, h⟩
    rw [ArrayIterator.getChunk, hcached, h.handed cs hcached]
  | none =>
    rcases h.chosen with ⟨front, m, back, c, rest, its, rfl, hfront, hc, hcurr, hdrop, hheads⟩
    have hcurrent := current_of_drop hcurr hdrop
    have hlater : s.merging.iterators.drop (front.length + 1) = its := by
      rw [← drop_drop, hdrop, drop_succ_cons, drop_zero]
    have hchunks : (s.fetchAll front.length k c).1 = chunksAt (front ++ m :: back) k := by
      rw [chunksAt_split hfront hc, ← filterMap_fetch (hlater.symm ▸ hheads hcached)]
      rfl
    refine ⟨(s.fetchAll front.length k c).2, ?_, h.fetchAll hcurr hchunks⟩
    rw [ArrayIterator.getChunk, hcached, hcurr, hcurrent, ← hchunks]

/-- The union of the chunks, with those of the first inputs. -/
def unionChunks (ms : List (OrdMap Coordinates (Chunk V))) : List (Coordinates × Chunk V) :=
  unionAll (ms.map entries)

/-- The entries of an input that have a property start with the one at a position, if
there is one and no earlier entry has the property. -/
theorem head_filter_iff (hk : p k) (hle : ∀ f ∈ m.entries.filter fun e => p e.1, k ≤ f.1)
    (c : Chunk V) :
    (m.entries.filter fun e => p e.1).head? = some (k, c) ↔ m.get k = some c := by
  rw [← mem_entries]
  constructor
  · intro h
    exact mem_of_mem_filter (mem_of_mem_head? h)
  · intro h
    have hsorted : Sorted (m.entries.filter fun e => p e.1) := m.sorted.sublist filter_sublist
    rw [hsorted.eq_cons (lookup_of_mem hsorted (mem_filter.mpr ⟨h, hk⟩)) hle]
    rfl

variable {front : List (OrdMap Coordinates (Chunk V))}

/-- The iterator is at a position if every iterator over an input has been brought to it. -/
theorem At.of_map {f : OrdMap Coordinates (Chunk V) → List (Coordinates × Chunk V)}
    (hsub : ∀ m, (f m).Sublist m.entries)
    (hbehind : ∀ m, (f m).filter (fun e => isAfter k e.1) = m.entries.filter fun e => isAfter k e.1)
    (hheads : ∀ m' ∈ front ++ m :: back, ∀ c, (f m').head? = some (k, c) ↔ m'.get k = some c)
    (hc : m.get k = some c) (hfront : ∀ m' ∈ front, m'.get k = none) :
    At (front ++ m :: back)
      { merging := ⟨(front ++ m :: back).map f, some front.length⟩, currentChunk := none } k where
  sorted := by
    intro it hit
    rcases mem_map.mp hit with ⟨m, -, rfl⟩
    exact m.sorted.sublist (hsub m)
  behind := by
    rw [map_map]
    exact map_congr_left fun m _ => hbehind m
  chosen := by
    rcases List.head?_eq_some_iff.mp ((hheads m (by simp) c).mpr hc) with ⟨rest, hrest⟩
    refine ⟨front, m, back, c, rest, back.map f, rfl, hfront, hc, rfl, ?_, ?_⟩
    · rw [map_append, drop_left' (length_map _), map_cons, hrest]
    · intro _
      rw [forall₂_map_right_iff, forall₂_same]
      exact fun m' hm' => hheads m' (by simp [hm'])
  handed := by
    intro cs hcs
    cases hcs

/-- Bringing the iterators to the entries that have a property selects the first chunk
of the union that has it. -/
theorem freshArray_cases (hp : ∀ k k', p k → k < k' → p k') :
    ((freshArray ms p).position = none ∧ (unionChunks ms).filter (fun e => p e.1) = []) ∨
      ∃ k, At ms (freshArray ms p) k ∧ (unionChunks ms).filter (fun e => p e.1) =
        (unionChunks ms).filter fun e => isFrom k e.1 := by
  have hmap : (ms.map fun m => m.entries.filter fun e => p e.1) =
      (ms.map entries).map fun it => it.filter fun e => p e.1 := by
    rw [map_map]
    rfl
  have hsorted : ∀ it ∈ ms.map fun m => m.entries.filter fun e => p e.1, Sorted it := by
    intro it hit
    rcases mem_map.mp hit with ⟨m, -, rfl⟩
    exact m.sorted.sublist filter_sublist
  have hunion : (unionChunks ms).filter (fun e => p e.1) =
      unionAll (ms.map fun m => m.entries.filter fun e => p e.1) := by
    rw [unionChunks, ← unionAll_filter (sorted_entries ms), hmap]
  rcases lowest_cases hsorted with
    ⟨hlow, hnil⟩ | ⟨front, e, rest, back, hsplit, hlow, hle, hlt, -⟩
  · left
    refine ⟨?_, hunion.trans (unionAll_eq_nil hnil)⟩
    rw [freshArray, fresh, hlow]
    rfl
  · right
    rcases map_eq_append_iff.mp hsplit with ⟨front, ms', rfl, rfl, hms'⟩
    rcases map_eq_cons_iff.mp hms' with ⟨m, back, rfl, hm, rfl⟩
    have he : e ∈ m.entries.filter fun e => p e.1 := hm ▸ mem_cons_self
    have hpe : p e.1 := (mem_filter.mp he).2
    refine ⟨e.1, ?_, ?_⟩
    · rw [freshArray, fresh, hlow, length_map]
      apply At.of_map (fun m => filter_sublist)
        (fun m => filter_of_imp (fun k hk => hp e.1 k hpe (isAfter_iff.mp hk)) m.entries)
        (fun m' hm' => head_filter_iff hpe (hle _ (mem_map_of_mem hm')))
        (mem_entries.mp (mem_of_mem_filter he))
      intro m' hm'
      by_contra hne
      rcases Option.ne_none_iff_exists'.mp hne with ⟨c, hc⟩
      exact lt_irrefl _ (hlt _ (mem_map_of_mem hm') (e.1, c)
        (mem_filter.mpr ⟨mem_entries.mpr hc, hpe⟩))
    · apply filter_congr
      intro x hx
      rw [Bool.eq_iff_iff, isFrom_iff]
      constructor
      · intro hpx
        rcases mem_unionAll hx with ⟨it, hit, hxit⟩
        rcases mem_map.mp hit with ⟨m', hm', rfl⟩
        exact hle _ (mem_map_of_mem hm') x (mem_filter.mpr ⟨hxit, hpx⟩)
      · intro hle
        rcases hle.lt_or_eq with hlt | heq
        · exact hp e.1 x.1 hpe hlt
        · exact heq ▸ hpe

variable (ms)

/-- What is left to visit. -/
def remaining (s : ArrayIterator V) :
    List (Coordinates × Chunk V) :=
  match s.position with
  | none => []
  | some k => (unionChunks ms).filter fun e => isFrom k e.1

/-- The iterator is at its end or at a chunk. -/
def Placed (s : ArrayIterator V) : Prop :=
  s.position = none ∧ s.currentChunk = none ∨ ∃ k, At ms s k

variable {ms}

theorem At.remaining_eq (h : At ms s k) :
    ∃ c, remaining ms s = (k, c) :: (unionChunks ms).filter fun e => isAfter k e.1 := by
  rcases h.chosen with ⟨front, m, back, c, rest, its, rfl, hfront, hc, -⟩
  refine ⟨c, ?_⟩
  rw [remaining, h.position]
  exact filter_ge_unionAll hfront hc

/-- Moving on takes the first chunk off what is left. -/
theorem freshArray_placed (ms : List (OrdMap Coordinates (Chunk V)))
    (hp : ∀ k k', p k → k < k' → p k') :
    Placed ms (freshArray ms p) ∧
      remaining ms (freshArray ms p) = (unionChunks ms).filter fun e => p e.1 := by
  rcases freshArray_cases hp with ⟨hnone, hnil⟩ | ⟨k, hat, heq⟩
  · refine ⟨.inl ⟨hnone, rfl⟩, ?_⟩
    rw [remaining, hnone, hnil]
  · refine ⟨.inr ⟨k, hat⟩, ?_⟩
    rw [remaining, hat.position, heq]

theorem isAfter_mono (k : Coordinates) : ∀ k₁ k₂, isAfter k k₁ → k₁ < k₂ → isAfter k k₂ := by
  intro k₁ k₂ h hlt
  exact isAfter_iff.mpr ((isAfter_iff.mp h).trans hlt)

/-- Wherever the iterator is, it visits what is left, if moving on brings the iterators
behind the position. -/
theorem visits_remaining {current : ArrayIterator V → Option β}
    {next : ArrayIterator V → Except Fault (ArrayIterator V)} (item : Coordinates → β)
    (hend : ∀ s, s.position = none → current s = none)
    (hat : ∀ s k, At ms s k → current s = some (item k) ∧ next s = .ok (freshArray ms (isAfter k)))
    (h : Placed ms s) : Visits current next s ((remaining ms s).map fun e => item e.1) := by
  apply visits_rest (Placed ms) (fun s => (remaining ms s).map fun e => item e.1) _ _ h
  · intro s hs hnil
    rcases hs with ⟨hnone, -⟩ | ⟨k, hk⟩
    · exact hend s hnone
    · rcases hk.remaining_eq with ⟨c, hc⟩
      rw [hc] at hnil
      cases hnil
  · intro s x l hs hcons
    rcases hs with ⟨hnone, -⟩ | ⟨k, hk⟩
    · rw [remaining, hnone] at hcons
      cases hcons
    · rcases hk.remaining_eq with ⟨c, hc⟩
      rw [hc, map_cons, List.cons.injEq] at hcons
      rcases freshArray_placed ms (isAfter_mono k) with ⟨hplaced, hremaining⟩
      rcases hat s k hk with ⟨hcurrent, hnext⟩
      refine ⟨hcurrent.trans (congrArg some hcons.1), _, hnext, hplaced, ?_⟩
      rw [hremaining, hcons.2]

/-- Reading the chunks on the way makes no difference. -/
theorem visits_chunks (h : Placed ms s) :
    Visits ArrayIterator.visit ArrayIterator.step s
      ((remaining ms s).map fun e => (e.1, chunksAt ms e.1)) := by
  apply visits_remaining (fun k => (k, chunksAt ms k)) _ _ h
  · intro s hnone
    rw [ArrayIterator.visit, hnone]
  · intro s k hk
    rcases hk.getChunk with ⟨s', hget, hk'⟩
    constructor
    · rw [ArrayIterator.visit, hk.position, hget]
    · rw [ArrayIterator.step, hget]
      exact hk'.next

end ArrayIterator

open ArrayIterator (moveTo)

/-! ## Reachable states -/

section Reachable

variable {arrays : List (EmptyableArray dims V)} {s s' : ArrayIterator V}

theorem start_eq_fresh : ArrayIterator.start arrays = freshArray (inputs arrays) fun _ => true := by
  rw [ArrayIterator.start, freshArray, start]
  simp

theorem moveTo_suffix (c : Coordinates) (m : OrdMap Coordinates (Chunk V)) :
    moveTo c m <:+ m.entries := by
  unfold moveTo
  split
  · exact m.seek_suffix c
  · exact suffix_rfl

theorem moveTo_filter (c : Coordinates) (m : OrdMap Coordinates (Chunk V)) :
    (moveTo c m).filter (fun e => isAfter c e.1) = m.entries.filter fun e => isAfter c e.1 := by
  unfold moveTo
  split
  · exact filter_gt_seek c
  · rfl

theorem head_moveTo_iff (c : Coordinates) (m : OrdMap Coordinates (Chunk V)) (x : Chunk V) :
    (moveTo c m).head? = some (c, x) ↔ m.get c = some x := by
  constructor
  · intro h
    exact mem_entries.mp ((moveTo_suffix c m).subset (mem_of_mem_head? h))
  · intro h
    rw [moveTo, h, Option.isSome_some, if_pos rfl, seek_of_get h]
    rfl

/-- `setPosition` moves the iterator to the chunk that holds the position. -/
theorem setPosition_at (h : ArrayIterator.setPosition arrays pos = .ok s) :
    At (inputs arrays) s (getChunkPositionFor dims pos) := by
  rw [ArrayIterator.setPosition] at h
  generalize inputs arrays = ms at h ⊢
  split at h
  · rename_i hfound
    rcases Option.isSome_iff_exists.mp hfound with ⟨j, hj⟩
    rw [hj, Except.ok.injEq] at h
    rcases List.findIdx?_eq_some_iff_getElem.mp hj with ⟨hlen, hsome, hbefore⟩
    rcases Option.isSome_iff_exists.mp hsome with ⟨x, hx⟩
    have hm := List.getElem?_eq_getElem hlen
    generalize ms[j] = m at hm hx
    rcases exists_split hm with ⟨front, back, rfl, rfl⟩
    rw [← h]
    apply At.of_map (fun m => (moveTo_suffix _ m).sublist) (moveTo_filter _)
      (fun m _ => head_moveTo_iff _ m) hx
    intro m hm
    rcases mem_iff_getElem.mp hm with ⟨i, hi, rfl⟩
    simpa [hi] using hbefore i hi
  · cases h

theorem start_placed (arrays : List (EmptyableArray dims V)) :
    Placed (inputs arrays) (ArrayIterator.start arrays) ∧
    remaining (inputs arrays) (ArrayIterator.start arrays) = unionChunks (inputs arrays) := by
  rw [start_eq_fresh]
  rcases freshArray_placed (inputs arrays) (fun _ _ _ _ => rfl) with
    ⟨hplaced, hremaining⟩
  exact ⟨hplaced, hremaining.trans (by simp)⟩

theorem arrayCall_placed {c : ArrayCall} (hs : Placed (inputs arrays) s)
    (h : arrayCall arrays s c = .ok s') : Placed (inputs arrays) s' := by
  cases c with
  | restart =>
    cases h
    exact (start_placed arrays).1
  | setPosition pos => exact .inr ⟨_, setPosition_at h⟩
  | next =>
    rcases hs with ⟨hnone, -⟩ | ⟨k, hat⟩
    · rw [ArrayIterator.position, Option.map_eq_none_iff] at hnone
      rw [arrayCall, ArrayIterator.next, Merging.next, hnone] at h
      cases h
    · rw [arrayCall, hat.next] at h
      cases h
      exact (freshArray_placed _ (isAfter_mono k)).1
  | getChunk =>
    rcases hs with ⟨hnone, hcached⟩ | ⟨k, hat⟩
    · rw [ArrayIterator.position, Option.map_eq_none_iff] at hnone
      rw [arrayCall, ArrayIterator.getChunk, hcached, hnone] at h
      cases hi : s.merging.currIterator with
      | none =>
        rw [hi] at h
        cases h
      | some i =>
        rw [hi] at h
        cases h
    · rcases hat.getChunk with ⟨s₁, hget, hat₁⟩
      rw [arrayCall, hget] at h
      cases h
      exact .inr ⟨k, hat₁⟩

end Reachable

/-! ## The cells of the union -/

section Cells

variable {arrays : List (EmptyableArray dims V)}

/-- The chunks of the union with their cells. -/
def unionCells (arrays : List (EmptyableArray dims V)) :
    List (Coordinates × List (Coordinates × V)) :=
  (unionChunks (inputs arrays)).map fun e =>
    (e.1, unionAll ((chunksAt (inputs arrays) e.1).map entries))

theorem findSome_filterMap {δ : Type*} (f : β → Option γ) (g : γ → Option δ) (l : List β) :
    (l.filterMap f).findSome? g = l.findSome? fun b => (f b).bind g := by
  rw [← head?_filterMap, filterMap_filterMap, head?_filterMap]

/-- Leaving out the chunks without cells changes no cell. -/
theorem findSome_filter_nonempty (cs : List (Chunk V)) (pos : Coordinates) :
    (cs.filter fun c => !c.entries.isEmpty).findSome? (fun c => c.get pos) =
      cs.findSome? fun c => c.get pos := by
  rw [← filterMap_eq_filter, findSome_filterMap]
  congr 1
  funext c
  cases hc : c.entries.isEmpty with
  | false => simp [hc]
  | true => simp [OrdMap.get, isEmpty_iff.mp hc]

variable (ms : List (OrdMap Coordinates (Chunk V)))

theorem findSome_chunksAt (k pos : Coordinates) :
    (chunksAt ms k).findSome? (fun c => c.get pos) =
      ms.findSome? fun m => (m.get k).bind fun c => c.get pos := by
  rw [← findSome_filterMap, chunksAt]
  cases ms.filterMap fun m => m.get k with
  | nil => rfl
  | cons c cs => rw [findSome?_cons, findSome?_cons, findSome_filter_nonempty]

variable {c : Chunk V} {k p : Coordinates} {e : Coordinates × V} {cells : List (Coordinates × V)}
  {out : List (Coordinates × List (Coordinates × V))} {a : EmptyableArray dims V}

theorem mem_chunksAt {ms : List (OrdMap Coordinates (Chunk V))} (h : c ∈ chunksAt ms k) :
    ∃ m ∈ ms, m.get k = some c := by
  rw [← mem_filterMap]
  rw [chunksAt] at h
  cases hcs : ms.filterMap fun m => m.get k with
  | nil =>
    rw [hcs] at h
    cases h
  | cons c' cs =>
    rw [hcs] at h
    rcases mem_cons.mp h with rfl | h
    · exact mem_cons_self
    · exact mem_cons_of_mem _ (mem_of_mem_filter h)

theorem mem_unionChunks :
    pos ∈ (unionChunks (inputs arrays)).map Prod.fst ↔ ∃ a ∈ arrays, (a.chunks.get pos).isSome := by
  rw [unionChunks, mem_keys_unionAll, inputs]
  simp [Holds]

theorem chunk_of_cell (he : e ∈ unionAll ((chunksAt (inputs arrays) k).map entries)) :
    getChunkPositionFor dims e.1 = k := by
  rcases mem_unionAll he with ⟨it, hit, heit⟩
  rcases mem_map.mp hit with ⟨chunk, hchunk, rfl⟩
  rcases mem_chunksAt hchunk with ⟨m, hm, hget⟩
  rcases mem_map.mp hm with ⟨a, -, rfl⟩
  exact a.cells_in (k, chunk) (mem_entries.mpr hget) e heit

theorem unionCells_isUnion : IsUnion arrays (unionCells arrays) where
  sorted := by
    rw [unionCells, Sorted, pairwise_map]
    exact sorted_unionAll (sorted_entries _)
  cells_sorted := by
    intro c hc
    rcases mem_map.mp hc with ⟨e, -, rfl⟩
    exact sorted_unionAll (sorted_entries _)
  cells_in := by
    intro c hc e he
    rcases mem_map.mp hc with ⟨e', -, rfl⟩
    exact chunk_of_cell he
  mem_positions := by
    intro pos
    rw [← mem_unionChunks, unionCells, map_map]
    rfl
  cell := by
    intro pos v
    have harrays : (arrays.findSome? fun a => a.cell pos) =
        (chunksAt (inputs arrays) (getChunkPositionFor dims pos)).findSome? fun c => c.get pos := by
      rw [findSome_chunksAt, inputs, findSome?_map]
      rfl
    rw [harrays, ← mem_unionAll_iff]
    constructor
    · rintro ⟨c, hc, hmem⟩
      rcases mem_map.mp hc with ⟨e, -, rfl⟩
      rw [chunk_of_cell hmem]
      exact hmem
    · intro hmem
      have hpos : getChunkPositionFor dims pos ∈ (unionChunks (inputs arrays)).map Prod.fst := by
        rcases mem_unionAll hmem with ⟨it, hit, -⟩
        rcases mem_map.mp hit with ⟨chunk, hchunk, rfl⟩
        rcases mem_chunksAt hchunk with ⟨m, hm, hget⟩
        exact mem_keys_unionAll.mpr ⟨m, hm, by rw [Holds, hget, Option.isSome_some]⟩
      rcases mem_map.mp hpos with ⟨e, he, heq⟩
      refine ⟨_, mem_map_of_mem he, ?_⟩
      rw [heq]
      exact hmem

/-- The chunks that are left, with their cells. -/
theorem iterates_of_placed {s : ArrayIterator V} (h : Placed (inputs arrays) s) :
    Iterates s ((remaining (inputs arrays) s).map fun e =>
      (e.1, unionAll ((chunksAt (inputs arrays) e.1).map entries))) := by
  refine ⟨?_, _, visits_chunks h, ?_⟩
  · rw [map_map]
    exact visits_remaining id (fun _ hnone => hnone) (fun _ _ hk => ⟨hk.position, hk.next⟩) h
  · rw [forall₂_map_left_iff, forall₂_map_right_iff, forall₂_same]
    exact fun e _ => ⟨rfl, visits_fresh (sorted_entries _)⟩

theorem IsUnion.subset {out' : List (Coordinates × List (Coordinates × V))} {c : Coordinates}
    {cells' : List (Coordinates × V)} (h : IsUnion arrays out) (h' : IsUnion arrays out')
    (hc : (c, cells) ∈ out) (hc' : (c, cells') ∈ out') (he : e ∈ cells) :
    e ∈ cells' := by
  have hcell := (h.cell e.1 e.2).trans (h'.cell e.1 e.2).symm
  rcases hcell.mp ⟨_, hc, he⟩ with ⟨⟨c'', cells''⟩, hmem, he'⟩
  have hpos : c = c'' := (h.cells_in _ hc e he).symm.trans (h'.cells_in _ hmem e he')
  rw [h'.sorted.eq_of_mem hc' (hpos ▸ hmem)]
  exact he'

/-- The union is determined by the arrays. -/
theorem IsUnion.cells_eq {c : Coordinates} (h : IsUnion arrays out) (hc : (c, cells) ∈ out) :
    cells = unionAll ((chunksAt (inputs arrays) c).map entries) := by
  have hpos : c ∈ (unionChunks (inputs arrays)).map Prod.fst :=
    mem_unionChunks.mpr ((h.mem_positions c).mp (mem_map_of_mem hc))
  rcases mem_map.mp hpos with ⟨e, he, rfl⟩
  have hc' := mem_map_of_mem (f := fun e : Coordinates × Chunk V =>
    (e.1, unionAll ((chunksAt (inputs arrays) e.1).map entries))) he
  apply (h.cells_sorted _ hc).ext_mem (sorted_unionAll (sorted_entries _))
  intro x
  exact ⟨h.subset unionCells_isUnion hc hc', unionCells_isUnion.subset h hc' hc⟩

/-! ## When the chunk iterators are consistent -/

theorem ordered_filterMap {f : β → Option γ} {hold : γ → Coordinates → Prop}
    :
    Ordered hold (l.filterMap f) ↔ Ordered (fun b p => ∃ g, f b = some g ∧ hold g p) l := by
  have hiff : ∀ (l : List β) (p : Coordinates),
      (∃ g ∈ l.filterMap f, hold g p) ↔ ∃ b ∈ l, ∃ g, f b = some g ∧ hold g p := by
    intro l p
    simp only [mem_filterMap]
    constructor
    · rintro ⟨g, ⟨b, hb, hg⟩, hold⟩
      exact ⟨b, hb, g, hg, hold⟩
    · rintro ⟨b, hb, g, hg, hold⟩
      exact ⟨g, ⟨b, hb, hg⟩, hold⟩
  constructor
  · intro h front hfront p q hpq hp hq
    rw [← hiff] at hp hq ⊢
    exact h _ (hfront.filterMap f) p q hpq hp hq
  · rintro h front ⟨back, hback⟩ p q hpq hp hq
    rcases filterMap_eq_append_iff.mp hback.symm with ⟨a, b, rfl, rfl, rfl⟩
    rw [hiff] at hp hq ⊢
    exact h a (prefix_append a b) p q hpq hp hq

/-- Members that hold nothing can be left out. -/
theorem ordered_filter {hold : β → Coordinates → Prop} {keep : β → Bool}
    (h : ∀ b p, hold b p → keep b) (l : List β) :
    Ordered hold (l.filter keep) ↔ Ordered hold l := by
  have hhold : (fun b p => ∃ g, Option.guard keep b = some g ∧ hold g p) = hold := by
    funext b p
    apply propext
    simp only [Option.guard_eq_some_iff]
    constructor
    · rintro ⟨g, ⟨rfl, -⟩, hg⟩
      exact hg
    · intro hb
      exact ⟨b, ⟨rfl, h b p hb⟩, hb⟩
  rw [← filterMap_eq_filter, ordered_filterMap, hhold]

theorem ordered_chunksAt (k : Coordinates) :
    Ordered Holds (chunksAt ms k) ↔ Ordered Holds (ms.filterMap fun m => m.get k) := by
  have hkeep : ∀ (c : Chunk V) p, Holds c p → !c.entries.isEmpty := by
    intro c p hp
    cases hempty : c.entries.isEmpty with
    | false => rfl
    | true =>
      rw [Holds, OrdMap.get, isEmpty_iff.mp hempty] at hp
      cases hp
  rw [chunksAt]
  cases ms.filterMap fun m => m.get k with
  | nil => rfl
  | cons c cs =>
    rw [← ordered_filter hkeep, ← ordered_filter hkeep (c :: cs), filter_cons, filter_cons]
    simp

/-- An array has a cell in its chunk at a position. -/
theorem cell_isSome_iff :
    (a.cell p).isSome ↔ ∃ c, a.chunks.get (getChunkPositionFor dims p) = some c ∧ Holds c p := by
  rw [EmptyableArray.cell]
  cases a.chunks.get (getChunkPositionFor dims p) with
  | none => simp
  | some c => simp [Holds]

theorem chunk_of_holds (hc : a.chunks.get k = some c) (hp : Holds c p) :
    getChunkPositionFor dims p = k := by
  rcases Option.isSome_iff_exists.mp hp with ⟨x, hx⟩
  exact a.cells_in _ (mem_entries.mpr hc) _ (mem_entries.mpr hx)

theorem descending_iff : Descending arrays ↔ ∀ k, Ordered Holds (chunksAt (inputs arrays) k) := by
  have hordered : ∀ k, Ordered Holds (chunksAt (inputs arrays) k) ↔
      Ordered (fun a p => ∃ c, a.chunks.get k = some c ∧ Holds c p) arrays := by
    intro k
    rw [ordered_chunksAt, inputs, filterMap_map, ordered_filterMap]
    rfl
  constructor
  · intro h k
    rw [hordered]
    rintro front hfront p q hpq ⟨a, ha, c, hc, hp⟩ ⟨b, hb, d, hd, hq⟩
    have hpk := chunk_of_holds hc hp
    have hqk := chunk_of_holds hd hq
    rcases h front hfront p q hpq (hpk.trans hqk.symm)
      ⟨a, ha, cell_isSome_iff.mpr ⟨c, by rw [hpk, hc], hp⟩⟩
      ⟨b, hb, cell_isSome_iff.mpr ⟨d, by rw [hqk, hd], hq⟩⟩ with ⟨a', ha', hcell⟩
    rcases cell_isSome_iff.mp hcell with ⟨c', hc', hq'⟩
    exact ⟨a', ha', c', by rw [← hqk, hc'], hq'⟩
  · rintro h front hfront p q hpq hpos ⟨a, ha, hp⟩ ⟨b, hb, hq⟩
    rw [cell_isSome_iff, hpos] at hp
    rw [cell_isSome_iff] at hq
    rcases (hordered _).mp (h _) front hfront p q hpq ⟨a, ha, hp⟩ ⟨b, hb, hq⟩ with ⟨a', ha', hq'⟩
    exact ⟨a', ha', cell_isSome_iff.mpr hq'⟩

/-- Every chunk with a cell can be reached. -/
theorem exists_at (hc : c ∈ chunksAt (inputs arrays) k) (hp : Holds c p) :
    ∃ s, runM (arrayCall arrays) (.start arrays) [.setPosition p] = .ok s ∧
      At (inputs arrays) s k := by
  rcases mem_chunksAt hc with ⟨m, hm, hget⟩
  rcases mem_map.mp hm with ⟨a, ha, rfl⟩
  have hk := chunk_of_holds hget hp
  have hfound : ((inputs arrays).findIdx? fun m =>
      (m.get (getChunkPositionFor dims p)).isSome).isSome := by
    rw [findIdx?_isSome, any_eq_true]
    exact ⟨_, hm, by rw [hk, hget, Option.isSome_some]⟩
  have hset : ∃ s, ArrayIterator.setPosition arrays p = .ok s :=
    ⟨_, by rw [ArrayIterator.setPosition, if_pos hfound]⟩
  rcases hset with ⟨s, hs⟩
  refine ⟨s, ?_, hk ▸ setPosition_at hs⟩
  rw [runM, arrayCall, hs]
  rfl

/-- If the iterators are consistent, then in particular those over a chunk whose cells
were all visited before. -/
theorem descending_of_exact (h : Exact arrays) : Descending arrays := by
  rw [descending_iff]
  rcases h with ⟨out, hunion, -, -, hchunks⟩
  rintro k front hfront p q hpq ⟨c, hc, hp⟩
  rcases exists_at (hfront.subset hc) hp with ⟨s, hrun, hat⟩
  rcases hat.getChunk with ⟨s', hget, -⟩
  have hmem : k ∈ out.map Prod.fst := by
    rcases mem_chunksAt (hfront.subset hc) with ⟨m, hm, hm'⟩
    rcases mem_map.mp hm with ⟨a, ha, rfl⟩
    exact (hunion.mem_positions k).mpr ⟨a, ha, by rw [hm', Option.isSome_some]⟩
  rcases mem_map.mp hmem with ⟨⟨k', cells⟩, hout, rfl⟩
  have hconsistent : Consistent (chunksAt (inputs arrays) k') := by
    intro calls t pos t' hcalls hset
    rw [← hunion.cells_eq hout]
    exact hchunks _ s _ s' k' cells hrun hget hat.position hout calls t pos t' hcalls hset
  exact ordered_of_consistent hconsistent front hfront p q hpq ⟨c, hc, hp⟩

theorem exact_of_descending (h : Descending arrays) : Exact arrays := by
  rw [descending_iff] at h
  refine ⟨unionCells arrays, unionCells_isUnion, ?_, ?_, ?_⟩
  · have hiter := iterates_of_placed (start_placed arrays).1
    rw [(start_placed arrays).2] at hiter
    exact hiter
  · intro calls s pos s' _ hset
    have hat := setPosition_at hset
    have hiter := iterates_of_placed (.inr ⟨_, hat⟩)
    rw [remaining, hat.position] at hiter
    rw [unionCells, filter_map]
    exact hiter
  · intro calls s inputChunks s' c cells hrun hget hpos hmem
    rcases runM_preserves (fun _ _ _ hs hc => arrayCall_placed hs hc) (start_placed arrays).1 hrun
      with ⟨hnone, -⟩ | ⟨k, hat⟩
    · rw [hnone] at hpos
      cases hpos
    · rcases hat.getChunk with ⟨s₁, hget₁, -⟩
      rw [hat.position] at hpos
      rw [hget₁] at hget
      cases hget
      cases hpos
      rw [unionCells_isUnion.cells_eq hmem]
      exact consistent_of_ordered (h _)

end Cells

/-- The iterators are consistent exactly if inside of a chunk a later cell never comes
from a later array. -/
theorem merge_exact_iff (arrays : List (EmptyableArray dims V)) : Exact arrays ↔
    Descending arrays :=
  ⟨descending_of_exact, exact_of_descending⟩

/-- A dimension with one chunk of two cells. -/
def pair : DimensionDesc := .ofBounds 0 1 2 (by decide)

/-- An array with one cell. -/
def holding (x : Int) (hx : getChunkPositionFor [pair] [x] = [0]) : EmptyableArray [pair] Nat where
  chunks := ⟨[([0], ⟨[([x], 7)], pairwise_singleton _ _⟩)], pairwise_singleton _ _⟩
  isChunkPosition := by
    intro c hc
    rw [mem_singleton.mp hc]
    exact isChunkPosition_origin [pair]
  cells_in := by
    intro c hc e he
    rw [mem_singleton.mp hc] at he ⊢
    rw [mem_singleton.mp he, hx]

/-- One array has the cell 0 and the other one the cell 1.  After a run to the end and
`setPosition(0)`, the iterator over the second array is still at its end. -/
theorem later_cell_is_lost : ¬Exact [holding 0 rfl, holding 1 rfl] := by
  intro h
  have hfront : [holding 0 rfl] <+: [holding 0 rfl, holding 1 rfl] := ⟨[holding 1 rfl], rfl⟩
  rcases descending_of_exact h _ hfront [0] [1] (by decide) rfl
    ⟨_, mem_singleton_self _, rfl⟩
    ⟨holding 1 rfl, mem_cons_of_mem _ (mem_singleton_self _), rfl⟩ with ⟨a, ha, hcell⟩
  rw [mem_singleton.mp ha] at hcell
  cases hcell

end SciDB.Operators.Merge
