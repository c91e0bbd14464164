import Mathlib

/-!
# Aggregates over integers

The aggregates `sum`, `prod`, `min`, `max` and `count` of an integer attribute:
`Aggregate` and its templates in `include/query/Aggregate.h`, the kernels in
`include/query/TileFunctions.h`, and `CountAggregate` in `src/query/BuiltinAggregates.cpp`.

A state is a `Value`.  Null with the reason 0 says that there is no state yet; `min` and
`max` use null with the reason 1 as long as they have not seen a value.  Sums, products
and counts have 64 bits and wrap around.

Main results:

- Theorem {lit}`Call.finalResult_run`: a state that has seen some values is finalised to
  what the aggregate of these values means.
- Theorem {lit}`Call.merge_run`: merging two states is seeing the values of both.
- Theorem {lit}`Call.run_perm`: the order of the values does not matter.
-/

namespace SciDB.Aggregates

open List

/-! ## Values -/

/-- A `Value`: null with a missing reason, or an integer. -/
inductive Value where
  | null (reason : Nat)
  | data (x : Int)
deriving DecidableEq, Repr

namespace Value

def isNull : Value → Bool
  | null _ => true
  | data _ => false

/-- `get`; what a null holds is not defined. -/
def get : Value → Int
  | null _ => 0
  | data x => x

/-- The integer, if there is one. -/
def toOption : Value → Option Int
  | null _ => none
  | data x => some x

end Value

/-- `Aggregate::isStateInitialized` -/
def isStateInitialized (state : Value) : Bool :=
  decide (state ≠ .null 0)

/-- A result of 64 bits. -/
def wrap (signed : Bool) (x : Int) : Int :=
  if signed then x.bmod (2 ^ 64) else x % 2 ^ 64

/-! ## The kernels -/

/-- A kernel of `BaseAggregate`: `init`, `aggregate`, `merge` and `final` of a state and of
a missing reason. -/
structure Kernel where
  init : Int
  aggregate : Int → Int → Int
  merge : Int → Int → Int
  finalReason : Int

/-- A kernel that combines values in 64 bits. -/
def wrapping (signed : Bool) (op : Int → Int → Int) (init : Int) : Kernel where
  init := init
  aggregate := fun state value => wrap signed (op state value)
  merge := fun state newState => wrap signed (op state newState)
  finalReason := 0

def AggSum (signed : Bool) : Kernel :=
  wrapping signed (· + ·) 0

def AggProd (signed : Bool) : Kernel :=
  wrapping signed (· * ·) 1

/-- `AggMin` and `AggMax`; `better` compares a new value with the state. -/
def pick (better : Int → Int → Bool) (state value : Int) : Int :=
  if better value state then value else state

def AggMin : Int → Int → Int :=
  pick fun value state => decide (value < state)

def AggMax : Int → Int → Int :=
  pick fun value state => decide (state < value)

/-! ## The aggregates -/

/-- The virtual functions of `Aggregate`. -/
structure Aggregate where
  ignoreNulls : Bool
  initializeState : Value
  isMergeable : Value → Bool
  accumulate : Value → Value → Value
  merge : Value → Value → Value
  finalResult : Value → Value

namespace Aggregate

variable (A : Aggregate)

def isAccumulatable (srcValue : Value) : Bool :=
  !(A.ignoreNulls && srcValue.isNull)

/-- The first step of `accumulateIfNeeded` and `mergeIfNeeded`. -/
def initialized (state : Value) : Value :=
  if isStateInitialized state then state else A.initializeState

def accumulateIfNeeded (dstState srcValue : Value) : Value :=
  let dstState := A.initialized dstState
  if A.isAccumulatable srcValue then A.accumulate dstState srcValue else dstState

def mergeIfNeeded (dstState srcState : Value) : Value :=
  let dstState := A.initialized dstState
  if A.isMergeable srcState then A.merge dstState srcState else dstState

end Aggregate

/-- `BaseAggregate` -/
def baseAggregate (K : Kernel) : Aggregate where
  ignoreNulls := true
  initializeState := .data K.init
  isMergeable := isStateInitialized
  accumulate := fun dstState srcValue => .data (K.aggregate dstState.get srcValue.get)
  merge := fun dstState srcState => .data (K.merge dstState.get srcState.get)
  finalResult := fun srcState => .data (if srcState.isNull then K.finalReason else srcState.get)

/-- `BaseAggregateInitByFirst::isMergeable` -/
def hasValue (state : Value) : Bool :=
  isStateInitialized state && decide (state ≠ .null 1)

/-- `BaseAggregateInitByFirst`; `init` of the kernels stores the first value. -/
def initByFirst (aggregate : Int → Int → Int) : Aggregate where
  ignoreNulls := true
  initializeState := .null 1
  isMergeable := hasValue
  accumulate := fun dstState srcValue =>
    let state := if hasValue dstState then dstState.get else srcValue.get
    .data (aggregate state srcValue.get)
  merge := fun dstState srcState =>
    if hasValue dstState then .data (aggregate dstState.get srcState.get) else srcState
  finalResult := fun srcState => if srcState.isNull then .null 0 else .data srcState.get

/-- `CountAggregate`, of an attribute or of all cells. -/
def countAggregate (ignoreNulls : Bool) : Aggregate where
  ignoreNulls := ignoreNulls
  initializeState := .data 0
  isMergeable := isStateInitialized
  accumulate := fun dstState _ => .data (wrap false (dstState.get + 1))
  merge := fun dstState srcState => .data (wrap false (dstState.get + srcState.get))
  finalResult := fun srcState => if isStateInitialized srcState then srcState else .data 0

/-- An aggregate call on an integer attribute; `signed` says which 64-bit type the result
has. -/
inductive Call where
  | sum (signed : Bool)
  | prod (signed : Bool)
  | min
  | max
  | count
  | countAll
deriving DecidableEq, Repr

namespace Call

def aggregate : Call → Aggregate
  | sum signed => baseAggregate (AggSum signed)
  | prod signed => baseAggregate (AggProd signed)
  | min => initByFirst AggMin
  | max => initByFirst AggMax
  | count => countAggregate true
  | countAll => countAggregate false

/-- The state after a list of values. -/
def run (c : Call) (values : List Value) : Value :=
  values.foldl c.aggregate.accumulateIfNeeded c.aggregate.initializeState

/-! ## What the aggregates mean -/

/-- The values that are not null. -/
def nonNull (values : List Value) : List Int :=
  values.filterMap Value.toOption

/-- The aggregate of a list of values. -/
def meaning (c : Call) (values : List Value) : Value :=
  match c with
  | sum signed => .data (wrap signed (nonNull values).sum)
  | prod signed => .data (wrap signed (nonNull values).prod)
  | min => ((nonNull values).min?).elim (.null 0) .data
  | max => ((nonNull values).max?).elim (.null 0) .data
  | count => .data (wrap false (nonNull values).length)
  | countAll => .data (wrap false values.length)

/-- The state that has seen a list of values. -/
def stateOf (c : Call) (values : List Value) : Value :=
  match c with
  | min => ((nonNull values).min?).elim (.null 1) .data
  | max => ((nonNull values).max?).elim (.null 1) .data
  | c => c.meaning values

end Call

open Call (nonNull)

/-! ## States of aggregates -/

/-- The states of an aggregate are determined by the values it has seen, whatever their
order. -/
structure Represents (A : Aggregate) (state : List Value → Value) : Prop where
  initialized : ∀ xs, isStateInitialized (state xs) = true
  initial : state [] = A.initializeState
  accumulate : ∀ xs x, A.accumulateIfNeeded (state xs) x = state (xs ++ [x])
  merge : ∀ xs ys, A.mergeIfNeeded (state xs) (state ys) = state (xs ++ ys)
  perm : ∀ xs ys, xs.Perm ys → state xs = state ys

section Arithmetic

variable (signed : Bool) (x y : Int)

theorem wrap_wrap_add : wrap signed (wrap signed x + y) = wrap signed (x + y) := by
  cases signed with
  | true => simp only [wrap, if_true, Int.bmod_add_bmod]
  | false => simp [wrap]

theorem wrap_wrap_mul : wrap signed (wrap signed x * y) = wrap signed (x * y) := by
  cases signed with
  | true => simp only [wrap, if_true, Int.bmod_mul_bmod]
  | false =>
    simp only [wrap, Bool.false_eq_true, if_false]
    rw [Int.mul_emod, Int.emod_emod_of_dvd _ (dvd_refl _), ← Int.mul_emod]

theorem wrap_zero : wrap signed 0 = 0 := by
  cases signed <;> rfl

theorem wrap_one : wrap signed 1 = 1 := by
  cases signed <;> decide

end Arithmetic

@[simp]
theorem nonNull_append (xs ys : List Value) : nonNull (xs ++ ys) = nonNull xs ++ nonNull ys :=
  filterMap_append

theorem nonNull_perm {xs ys : List Value} (h : xs.Perm ys) : (nonNull xs).Perm (nonNull ys) :=
  h.filterMap _

/-- A null is passed over by an aggregate that ignores it. -/
theorem accumulate_null (A : Aggregate) (state : List Value → Value) (hA : A.ignoreNulls = true)
    (hinit : ∀ xs, isStateInitialized (state xs) = true)
    (hstate : ∀ xs ys, nonNull xs = nonNull ys → state xs = state ys) (xs : List Value)
    (reason : Nat) : A.accumulateIfNeeded (state xs) (.null reason) =
    state (xs ++ [.null reason]) := by
  have hnot : A.isAccumulatable (.null reason) = false := by
    rw [Aggregate.isAccumulatable, hA]
    rfl
  have hsame : nonNull xs = nonNull (xs ++ [.null reason]) := by
    rw [nonNull_append]
    exact (append_nil _).symm
  rw [Aggregate.accumulateIfNeeded, hnot, Aggregate.initialized, hinit, hstate _ _ hsame]
  rfl

/-- A kernel that combines values with a commutative operation. -/
theorem represents_wrapping {signed : Bool} {op : Int → Int → Int} {init : Int}
    (hassoc : ∀ x y z, op (op x y) z = op x (op y z)) (hcomm : ∀ x y, op x y = op y x)
    (hinit : ∀ x, op x init = x)
    (hwrap : ∀ x y, wrap signed (op (wrap signed x) y) = wrap signed (op x y))
    (hwinit : wrap signed init = init) :
    Represents (baseAggregate (wrapping signed op init))
      fun xs => .data (wrap signed ((nonNull xs).foldl op init)) where
  initialized := fun _ => rfl
  initial := congrArg Value.data hwinit
  accumulate := by
    intro xs x
    cases x with
    | null reason =>
      exact accumulate_null (baseAggregate (wrapping signed op init))
        (fun xs => .data (wrap signed ((nonNull xs).foldl op init))) rfl (fun _ => rfl)
        (fun xs ys h => by rw [h]) xs reason
    | data x =>
      rw [nonNull_append, foldl_append]
      exact congrArg Value.data (hwrap _ _)
  merge := by
    intro xs ys
    have hfold : ∀ (l : List Int) (z : Int), l.foldl op z = op z (l.foldl op init) := by
      intro l
      induction l with
      | nil => exact fun z => (hinit z).symm
      | cons a l ih =>
        intro z
        rw [foldl_cons, foldl_cons, ih, ih (op init a), hcomm init, hinit, hassoc]
    have hboth : ∀ x y, wrap signed (op (wrap signed x) (wrap signed y)) =
      wrap signed (op x y) := by
      intro x y
      rw [hwrap, hcomm, hwrap, hcomm]
    rw [nonNull_append, foldl_append, hfold (nonNull ys) ((nonNull xs).foldl op init)]
    exact congrArg Value.data (hboth _ _)
  perm := by
    intro xs ys h
    have : RightCommutative op := ⟨fun x y z => by rw [hassoc, hassoc, hcomm y]⟩
    rw [(nonNull_perm h).foldl_eq]

/-- The best member of a list. -/
def best (f : Int → Int → Int) : List Int → Option Int
  | [] => none
  | x :: xs => some (xs.foldl f x)

/-- The state of an aggregate that starts with the first value. -/
def bestState (f : Int → Int → Int) (xs : List Value) : Value :=
  (best f (nonNull xs)).elim (.null 1) .data

/-- An aggregate that starts with the first value and takes the better one. -/
theorem represents_initByFirst {f : Int → Int → Int} (hassoc : ∀ x y z, f (f x y) z = f x (f y z))
    (hcomm : ∀ x y, f x y = f y x) (hidem : ∀ x, f x x = x) :
    Represents (initByFirst f) (bestState f) := by
  have hinit : ∀ xs, isStateInitialized (bestState f xs) = true := by
    intro xs
    rw [bestState]
    cases best f (nonNull xs) <;> rfl
  have hfold : ∀ (l : List Int) (y z : Int), l.foldl f (f z y) = f z (l.foldl f y) := by
    intro l
    induction l with
    | nil => exact fun y z => rfl
    | cons a l ih =>
      intro y z
      rw [foldl_cons, foldl_cons, hassoc, ih]
  have happend : ∀ l l' : List Int, best f (l ++ l') =
      match best f l, best f l' with
      | some x, some y => some (f x y)
      | none, o => o
      | o, none => o := by
    intro l l'
    cases l with
    | nil => cases l' <;> rfl
    | cons x l =>
      cases l' with
      | nil => rw [append_nil]; rfl
      | cons y l' =>
        rw [cons_append, best, foldl_append, foldl_cons, hfold]
        rfl
  refine ⟨hinit, rfl, ?_, ?_, ?_⟩
  · intro xs x
    cases x with
    | null reason =>
      exact accumulate_null (initByFirst f) (bestState f) rfl hinit
        (fun xs ys h => by rw [bestState, bestState, h]) xs reason
    | data x =>
      rw [bestState, bestState, nonNull_append, happend]
      cases best f (nonNull xs) with
      | none => exact congrArg Value.data (hidem x)
      | some y => rfl
  · intro xs ys
    rw [bestState, bestState, bestState, nonNull_append, happend]
    cases best f (nonNull xs) <;> cases best f (nonNull ys) <;> rfl
  · intro xs ys h
    have hright : RightCommutative f := ⟨fun x y z => by rw [hassoc, hassoc, hcomm y]⟩
    have hbest : ∀ {l l' : List Int}, l.Perm l' → best f l = best f l' := by
      intro l l' hperm
      induction hperm with
      | nil => rfl
      | cons x hperm _ => exact congrArg some (hperm.foldl_eq x)
      | swap x y l => rw [best, best, foldl_cons, foldl_cons, hcomm]
      | trans _ _ ih ih' => exact ih.trans ih'
    rw [bestState, bestState, hbest (nonNull_perm h)]

/-- A count of some of the values. -/
theorem represents_count {ignoreNulls : Bool} {counted : List Value → Nat}
    (hempty : counted [] = 0) (happend : ∀ xs ys, counted (xs ++ ys) = counted xs + counted ys)
    (hnull : ∀ reason, counted [.null reason] = if ignoreNulls then 0 else 1)
    (hdata : ∀ x, counted [.data x] = 1)
    (hperm : ∀ xs ys : List Value, xs.Perm ys → counted xs = counted ys) :
    Represents (countAggregate ignoreNulls) fun xs => .data (wrap false (counted xs)) where
  initialized := fun _ => rfl
  initial := by
    rw [hempty]
    rfl
  accumulate := by
    intro xs x
    have hadd : (countAggregate ignoreNulls).accumulate (.data (wrap false (counted xs))) x =
        .data (wrap false ((counted xs + 1 : Nat) : Int)) :=
      congrArg Value.data ((wrap_wrap_add _ _ _).trans (by rw [Nat.cast_add, Nat.cast_one]))
    rw [happend]
    cases x with
    | data x =>
      rw [hdata, ← hadd]
      cases ignoreNulls <;> rfl
    | null reason =>
      rw [hnull]
      cases ignoreNulls with
      | true => rfl
      | false => exact hadd
  merge := by
    intro xs ys
    rw [happend, Nat.cast_add, ← wrap_wrap_add, Int.add_comm, ← wrap_wrap_add, Int.add_comm]
    rfl
  perm := by
    intro xs ys h
    rw [hperm xs ys h]

/-! ## The calls -/

theorem aggMin_eq : AggMin = min := by
  funext x y
  simp only [AggMin, pick, decide_eq_true_eq]
  split <;> omega

theorem aggMax_eq : AggMax = max := by
  funext x y
  simp only [AggMax, pick, decide_eq_true_eq]
  split <;> omega

namespace Call

variable (c : Call)

theorem represents : Represents c.aggregate c.stateOf := by
  cases c with
  | sum signed =>
    have hstate : (sum signed).stateOf =
        fun xs => .data (wrap signed ((nonNull xs).foldl (· + ·) 0)) := by
      funext xs
      rw [← sum_eq_foldl]
      rfl
    rw [hstate]
    exact represents_wrapping Int.add_assoc Int.add_comm Int.add_zero (wrap_wrap_add signed)
      (wrap_zero signed)
  | prod signed =>
    have hstate : (prod signed).stateOf =
        fun xs => .data (wrap signed ((nonNull xs).foldl (· * ·) 1)) := by
      funext xs
      rw [← prod_eq_foldl]
      rfl
    rw [hstate]
    exact represents_wrapping Int.mul_assoc Int.mul_comm Int.mul_one (wrap_wrap_mul signed)
      (wrap_one signed)
  | min =>
    have hstate : Call.min.stateOf = bestState AggMin := by
      funext xs
      rw [stateOf, bestState, aggMin_eq]
      cases nonNull xs <;> rfl
    rw [hstate, aggregate, aggMin_eq]
    exact represents_initByFirst min_assoc min_comm min_self
  | max =>
    have hstate : Call.max.stateOf = bestState AggMax := by
      funext xs
      rw [stateOf, bestState, aggMax_eq]
      cases nonNull xs <;> rfl
    rw [hstate, aggregate, aggMax_eq]
    exact represents_initByFirst max_assoc max_comm max_self
  | count =>
    exact represents_count rfl (fun xs ys => by rw [nonNull_append, length_append])
      (fun _ => rfl) (fun _ => rfl) fun xs ys h => (nonNull_perm h).length_eq
  | countAll =>
    exact represents_count rfl (fun xs ys => length_append) (fun _ => rfl) (fun _ => rfl)
      fun xs ys h => h.length_eq

theorem run_eq (values : List Value) : c.run values = c.stateOf values := by
  induction values using List.reverseRecOn with
  | nil => exact c.represents.initial.symm
  | append_singleton values x ih =>
    rw [run, foldl_append, ← run, ih]
    exact c.represents.accumulate values x

/-- Merging two states is seeing the values of both. -/
theorem merge_run (xs ys : List Value) :
    c.aggregate.mergeIfNeeded (c.run xs) (c.run ys) = c.run (xs ++ ys) := by
  rw [run_eq, run_eq, run_eq]
  exact c.represents.merge xs ys

/-- The order of the values does not matter. -/
theorem run_perm {xs ys : List Value} (h : xs.Perm ys) : c.run xs = c.run ys := by
  rw [run_eq, run_eq]
  exact c.represents.perm xs ys h

/-- A state that has seen some values is finalised to the aggregate of these values. -/
theorem finalResult_run (xs : List Value) : c.aggregate.finalResult (c.run xs) = c.meaning xs := by
  rw [run_eq]
  cases c with
  | sum signed => rfl
  | prod signed => rfl
  | min =>
    show (initByFirst AggMin).finalResult (((nonNull xs).min?).elim _ _) = _
    cases h : (nonNull xs).min? with
    | none => rw [meaning, h]; rfl
    | some m => rw [meaning, h]; rfl
  | max =>
    show (initByFirst AggMax).finalResult (((nonNull xs).max?).elim _ _) = _
    cases h : (nonNull xs).max? with
    | none => rw [meaning, h]; rfl
    | some m => rw [meaning, h]; rfl
  | count => rfl
  | countAll => rfl

end Call

end SciDB.Aggregates
