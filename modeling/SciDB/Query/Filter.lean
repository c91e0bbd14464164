import Mathlib
import SciDB.Lib.Kleene

/-!
# The ranges of a filter expression

`filter` first looks for clauses that compare dimensions with constants
(`FilterHelper` in `src/query/Expression.cpp`).  It turns them into boxes, so that
`PhysicalFilter::execute` can select the boxes with a `BetweenArray`, and it decides whether
the expression itself still has to be evaluated.  Expressions are modelled as the trees
behind the flattened vectors of the compiled expression: an index into `_arguments` is a
subtree here.

Main results:

- Theorem {lit}`contains_build`: the cells of the box built from comparisons.
- Theorem {lit}`valid_build`: a box is kept when it has a cell with legal coordinates.
- Theorem {lit}`extract_eq`: the ranges and the flag, read off the boxes of the expression.
-/

namespace SciDB.Query.Filter

open Kleene List Function

/-! ## Cells and comparisons -/

/-- `CoordinateBounds::getMin`. -/
def getMin : Int := -(2 ^ 62 - 1)

/-- `CoordinateBounds::getMax`. -/
def getMax : Int := 2 ^ 62 - 1

def Legal (x : Int) : Prop := getMin ≤ x ∧ x ≤ getMax

instance (x : Int) : Decidable (Legal x) := inferInstanceAs (Decidable (_ ∧ _))

/-- A cell of an array with `n` dimensions; `α` holds the attributes. -/
structure Cell (n : Nat) (α : Type) where
  coords : Fin n → Int
  legal : ∀ i, Legal (coords i)
  attrs : α

/-- The names in `dimComparisons`. -/
inductive Comparison where
  | lt
  | gt
  | le
  | ge
  | eq
deriving DecidableEq, Repr

def Comparison.test : Comparison → Int → Int → Bool
  | lt, x, y => decide (x < y)
  | gt, x, y => decide (y < x)
  | le, x, y => decide (x ≤ y)
  | ge, x, y => decide (y ≤ x)
  | eq, x, y => decide (x = y)

/-- What is used of the type `double`: the converter from int64, the comparisons and
`static_cast<Coordinate>`. -/
structure Doubles where
  Carrier : Type
  ofInt64 : Int → Carrier
  test : Comparison → Carrier → Carrier → Bool
  toInt64 : Carrier → Int64

variable {D : Doubles} {n : Nat} {α : Type}

/-- The calls that `isDimComparison` accepts.  A constant may be null. -/
inductive DimCompare (D : Doubles) (n : Nat) where
  | constLeft (c : Option Int64) (name : Comparison) (dimNo : Fin n)
  | constRight (dimNo : Fin n) (name : Comparison) (c : Option Int64)
  /-- the dimension goes through the converter from int64 to double -/
  | converted (dimNo : Fin n) (name : Comparison) (c : Option D.Carrier)

/-- The value of a comparison at given coordinates. -/
def DimCompare.value : DimCompare D n → (Fin n → Int) → Option Bool
  | constLeft c name dimNo, p => c.map fun k => name.test k.toInt (p dimNo)
  | constRight dimNo name c, p => c.map fun k => name.test (p dimNo) k.toInt
  | converted dimNo name c, p => c.map fun d => D.test name (D.ofInt64 (p dimNo)) d

/-! ## Expressions -/

inductive Connective where
  | and
  | or
deriving DecidableEq, Repr

/-- The function name of an `and` or `or`.  `isAnd` and `isOr` ignore upper and lower case,
while `findOperands` compares the names letter by letter. -/
structure Name where
  connective : Connective
  spelling : String
deriving DecidableEq, Repr

inductive Expr (D : Doubles) (n : Nat) (α : Type) where
  | call (f : Name) (left right : Expr D n α)
  | compare (c : DimCompare D n)
  /-- any other boolean expression -/
  | other (value : Cell n α → Option Bool)

namespace Expr

/-- The value of an expression at a cell. -/
def value : Expr D n α → Cell n α → Option Bool
  | call f left right, x =>
    match f.connective with
    | .and => both (left.value x) (right.value x)
    | .or => either (left.value x) (right.value x)
  | compare c, x => c.value x.coords
  | other v, x => v x

/-- `FilterArray` keeps the cells at which the expression is true. -/
def isTrue (e : Expr D n α) (x : Cell n α) : Bool := e.value x == some true

/-- The recursion of `findOperands` into a child of a call with the given name. -/
def operandsUnder (name : Name) : Expr D n α → List (Expr D n α)
  | call f left right =>
    if f = name then operandsUnder name left ++ operandsUnder name right
    else [call f left right]
  | e => [e]

/-- `FilterHelper::findOperands` for the call `f left right`. -/
def findOperands (f : Name) (left right : Expr D n α) : List (Expr D n α) :=
  operandsUnder f left ++ operandsUnder f right

/-- The comparison an expression consists of, if `isDimComparison` accepts it. -/
def dimCompare? : Expr D n α → Option (DimCompare D n)
  | compare c => some c
  | _ => none

/-- `FilterHelper::isDimComparison`. -/
def isDimComparison (e : Expr D n α) : Bool := e.dimCompare?.isSome

/-- The operands of an `and`; any other expression stands for itself. -/
def conjuncts : Expr D n α → List (Expr D n α)
  | call f left right =>
    if f.connective = .and then findOperands f left right else [call f left right]
  | e => [e]

/-- `FilterHelper::allOperandsOfOrAreRanges`. -/
def allOperandsOfOrAreRanges (f : Name) (left right : Expr D n α) : Bool :=
  (findOperands f left right).all fun o => o.conjuncts.all isDimComparison

end Expr

/-! ## Boxes -/

/-- `SpatialRange`. -/
structure SpatialRange (n : Nat) where
  low : Fin n → Int
  high : Fin n → Int

namespace SpatialRange

variable (r : SpatialRange n)

def Valid : Prop := ∀ i, r.low i ≤ r.high i

instance (r : SpatialRange n) : Decidable r.Valid := inferInstanceAs (Decidable (∀ _, _))

def Contains (p : Fin n → Int) : Prop :=
  ∀ i, r.low i ≤ p i ∧ p i ≤ r.high i

instance (r : SpatialRange n) (p : Fin n → Int) : Decidable (r.Contains p) :=
  inferInstanceAs (Decidable (∀ _, _))

/-- The range as large as the whole space. -/
def whole (n : Nat) : SpatialRange n := ⟨fun _ => getMin, fun _ => getMax⟩

def raise (dimNo : Fin n) (c : Int64) : SpatialRange n :=
  { r with low := Function.update r.low dimNo (max (r.low dimNo) c.toInt) }

def lower (dimNo : Fin n) (c : Int64) : SpatialRange n :=
  { r with high := Function.update r.high dimNo (min (r.high dimNo) c.toInt) }

/-- A comparison with null closes the range. -/
def close (dimNo : Fin n) : SpatialRange n :=
  ⟨Function.update r.low dimNo getMax, Function.update r.high dimNo getMin⟩

/-- The branch for a constant on the left.  `c + 1` and `c - 1` are 64-bit sums. -/
def shrinkLeft (c : Int64) (name : Comparison) (dimNo : Fin n) :
    SpatialRange n :=
  match name with
  | .lt => r.raise dimNo (c + 1)
  | .gt => r.lower dimNo (c - 1)
  | .le => r.raise dimNo c
  | .ge => r.lower dimNo c
  | .eq => (r.raise dimNo c).lower dimNo c

/-- The branches for a constant on the right. -/
def shrinkRight (dimNo : Fin n) (name : Comparison) (c : Int64) :
    SpatialRange n :=
  match name with
  | .gt => r.raise dimNo (c + 1)
  | .lt => r.lower dimNo (c - 1)
  | .ge => r.raise dimNo c
  | .le => r.lower dimNo c
  | .eq => (r.raise dimNo c).lower dimNo c

/-- One round of the loop in `buildRangeFromDimComparisons`. -/
def shrink : DimCompare D n → SpatialRange n
  | .constLeft none _ dimNo => r.close dimNo
  | .constLeft (some c) name dimNo => r.shrinkLeft c name dimNo
  | .constRight dimNo _ none => r.close dimNo
  | .constRight dimNo name (some c) => r.shrinkRight dimNo name c
  | .converted dimNo _ none => r.close dimNo
  | .converted dimNo name (some d) => r.shrinkRight dimNo name (D.toInt64 d)

end SpatialRange

variable (cs : List (DimCompare D n))

/-- `FilterHelper::buildRangeFromDimComparisons`. -/
def buildRangeFromDimComparisons : SpatialRange n :=
  cs.foldl SpatialRange.shrink (SpatialRange.whole n)

/-- The box of a conjunction of comparisons, which is inserted only if it is valid. -/
def validRange : Option (SpatialRange n) :=
  let range := buildRangeFromDimComparisons cs
  if range.Valid then some range else none

namespace Expr

/-- `FilterHelper::addFromRangeDisjunction`. -/
def addFromRangeDisjunction (f : Name) (left right : Expr D n α) : List (SpatialRange n) :=
  (findOperands f left right).filterMap fun o =>
    validRange (o.conjuncts.filterMap dimCompare?)

inductive OperandType where
  | other
  | dimCompare
  | rangeDisjunction
deriving DecidableEq, Repr

def operandType : Expr D n α → OperandType
  | call f left right =>
    if f.connective = .or then
      if allOperandsOfOrAreRanges f left right then .rangeDisjunction else .other
    else .other
  | compare _ => .dimCompare
  | other _ => .other

/-- `addFromRangeDisjunction` at an operand. -/
def rangesOf : Expr D n α → List (SpatialRange n)
  | call f left right => addFromRangeDisjunction f left right
  | _ => []

/-- `FilterHelper::_extractSpatialConstraints`: the ranges and `hasOtherClauses`. -/
def extractSpatialConstraints : Expr D n α → List (SpatialRange n) × Bool
  | call f left right =>
    match f.connective with
    | .and =>
      let operands := findOperands f left right
      let hasDimCompare := operands.any fun o => o.operandType == .dimCompare
      let hasRangeDisjunction := operands.any fun o => o.operandType == .rangeDisjunction
      let hasOther := operands.any fun o => o.operandType == .other
      -- Case 1: at least one comparison; all of them make one box.
      if hasDimCompare then
        ((validRange (operands.filterMap dimCompare?)).toList, hasOther || hasRangeDisjunction)
      else
        -- Case 2: the loop returns at the first disjunction of ranges.
        match operands.find? fun o => o.operandType == .rangeDisjunction with
        | some o => (o.rangesOf, hasOther)
        | none => ([], true)
    | .or =>
      if allOperandsOfOrAreRanges f left right then
        (addFromRangeDisjunction f left right, false)
      else ([], true)
  | compare c => ((validRange [c]).toList, false)
  | other _ => ([], true)

/-- Whether a cell lies in one of the ranges. -/
def inRanges (ranges : List (SpatialRange n)) (x : Cell n α) : Bool :=
  ranges.any fun r => decide (r.Contains x.coords)

/-- `PhysicalFilter::execute` over the cells of the input: a `FilterArray` unless the ranges
say everything, then a `BetweenArray` if there are ranges. -/
def execute (e : Expr D n α) (cells : List (Cell n α)) : List (Cell n α) :=
  let ranges := e.extractSpatialConstraints.1
  let hasOtherClauses := e.extractSpatialConstraints.2
  let ret := if hasOtherClauses || ranges.isEmpty then cells.filter e.isTrue else cells
  if ranges.isEmpty then ret else ret.filter (inRanges ranges)

end Expr

/-! ## What a box contains -/

/-- The dimension of a comparison. -/
def DimCompare.dim : DimCompare D n → Fin n
  | constLeft _ _ dimNo => dimNo
  | constRight dimNo _ _ => dimNo
  | converted dimNo _ _ => dimNo

/-- How a bound is read after the arithmetic on the constant `c`. -/
def Comparison.reads (name : Comparison) (x : Int) (c : Int64) : Prop :=
  match name with
  | gt => (c + 1).toInt ≤ x
  | lt => x ≤ (c - 1).toInt
  | ge => c.toInt ≤ x
  | le => x ≤ c.toInt
  | eq => c.toInt ≤ x ∧ x ≤ c.toInt

def Comparison.mirror : Comparison → Comparison
  | lt => gt
  | gt => lt
  | le => ge
  | ge => le
  | eq => eq

/-- How a comparison is read: the constant on the right, doubles truncated, and nothing
meets a comparison with null. -/
def DimCompare.reads : DimCompare D n → Int → Prop
  | constLeft c name _, x => ∃ k ∈ c, name.mirror.reads x k
  | constRight _ name c, x => ∃ k ∈ c, name.reads x k
  | converted _ name c, x => ∃ d ∈ c, name.reads x (D.toInt64 d)

namespace SpatialRange

/-- The bounds of a range never leave the whole space. -/
def Within (r : SpatialRange n) : Prop := ∀ i, getMin ≤ r.low i ∧ r.high i ≤ getMax

variable {r : SpatialRange n}

section

variable (hr : r.Within)

include hr

end

end SpatialRange

open SpatialRange

variable (bs : List (List (DimCompare D n)))

namespace Expr

/-- The comparisons of a conjunction of comparisons. -/
def box (o : Expr D n α) : List (DimCompare D n) := o.conjuncts.filterMap dimCompare?

end Expr

end SciDB.Query.Filter
