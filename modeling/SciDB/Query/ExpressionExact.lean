import SciDB.Query.ExpressionCompile
import SciDB.Query.ExpressionRun

/-!
# When compiled expressions mean what they say

A compiled expression is laid out as its tree, with the converter to the expected type in
front, so an evaluation gives the meaning of the tree whatever the slots of the context hold
from earlier ones.  The tree has to be safe for the current bindings, since a function
remembers one skip index only: the innermost.

Main results:

- Theorem {lit}`compiled_exact`: in every sequence of evaluations with safe bindings each
  gives the value, the error and the functions of the tree with short-circuiting.
- Theorem {lit}`compiled_runs_unselected`: an excluded branch that divides by zero, and a value
  that an earlier evaluation left behind.
-/

namespace SciDB.Query.Expression

open List Run

variable {Ty ε : Type} {L : Library Ty ε}

/-! ## One evaluation -/

theorem evaluate_eq {E : Compiled Ty ε} {env : Bind Ty → Value} {σ σ' : Nat → Value}
    {r : Run ε Value} (hexec : exec E.kind env E.functions.reverse σ = (σ', r.trace, r.fault))
    (hval : ∀ v, r.result = .ok v → read E.kind env σ' 0 = v) : (evaluate E env σ).2 = r := by
  obtain ⟨trace, result⟩ := r
  cases result with
  | error e => simp only [evaluate, hexec, Run.fault]
  | ok v => simp [evaluate, hexec, Run.fault, hval v]

section Root

variable [DecidableEq Ty] {E : Compiled Ty ε} {t : Tree Ty} {env : Bind Ty → Value}

section

variable (hE : internalCompile L t 0 0 false ⟨[], [⟨L.void, false, .null 0⟩], []⟩ = some E)

include hE

/-- What the compiler makes of a whole tree, before the conversion to an expected type. -/
theorem root_appends : Appends L t 0 (0, false) ⟨[], [⟨L.void, false, .null 0⟩], []⟩ E :=
  internalCompile_laid L t 0 (0, false) _ _ hE ⟨nodup_nil, fun _ hj => nomatch hj⟩
    ⟨not_mem_nil, _, rfl, rfl⟩

theorem evaluate_unconverted (hsafe : t.Safe L env) (σ : Nat → Value) :
    (evaluate E env σ).2 = t.eval L env := by
  obtain ⟨code, hfun, hlaid⟩ := (root_appends hE).laid
  rw [nil_append] at hfun
  obtain ⟨σ', hexec, hval, -⟩ := (behaves L E.kind env t).computes hlaid hsafe σ Nat.one_pos
    (.inl Nat.one_pos) (.inl rfl) fun _ => rfl
  rw [← hfun] at hexec
  exact evaluate_eq hexec hval

theorem evaluate_converted (hsafe : t.Safe L env) (ty : Ty) (c : Value → Value) (σ : Nat → Value) :
    (evaluate (insertConverter ty c 0 none E) env σ).2 = (t.eval L env).map c := by
  have happ := root_appends hE
  obtain ⟨codeA, hfun, hlaid⟩ := happ.laid
  -- nothing stands before or behind the segment of the tree
  have hat : InsertsAt none ([] : List (CompiledFunction ε)) := ⟨rfl, Nat.le_refl 0⟩
  have hpass : Passes none ([] : List (CompiledFunction ε)) [] 0 := fun _ h => nomatch h
  have hsplit : E.functions = [] ++ ([] ++ (codeA ++ [])) := by rw [hfun]; simp
  have hins := insertConverter_inserts ty c hat hsplit hpass (fun _ h => nomatch h) hlaid
    happ.wellFormed Nat.one_pos (Nat.le_refl _)
  generalize insertConverter ty c 0 none E = E' at hins ⊢
  obtain ⟨code, convCode, hfun', harg⟩ := hins.laid
  -- the whole expression is the only argument of a function with this converter
  let d : Description Ty ε := ⟨fun _ => .ok (.null 0), ty, [some (ty, c)]⟩
  have hd : d.converter 0 = some c := rfl
  rw [← hd] at harg
  obtain ⟨σ₁, hexec, hready, -⟩ := arg_exec harg
    (fun s h => (behaves L E'.kind env t).computes h hsafe) σ Nat.one_pos (Nat.le_refl _)
    harg.le (.inl rfl) fun _ => rfl
  obtain ⟨σ₂, hconv, -, hread⟩ := conv_exec env harg σ₁
  have hmap : converted d 0 (t.eval L env) = (t.eval L env).map c := rfl
  rw [hmap] at hexec hready
  have hrun : E'.functions.reverse = code.reverse ++ convCode.reverse := by
    rw [hfun']
    simp
  cases hr : ((t.eval L env).map c).result with
  | error e =>
    rw [fault_error hr] at hexec
    have hall : exec E'.kind env E'.functions.reverse σ =
        (σ₁, ((t.eval L env).map c).trace, ((t.eval L env).map c).fault) := by
      rw [hrun, exec_append_error hexec, fault_error hr]
    refine evaluate_eq hall fun v hv => ?_
    rw [hr] at hv
    cases hv
  | ok v =>
    rw [fault_ok hr] at hexec
    have hall : exec E'.kind env E'.functions.reverse σ =
        (σ₂, ((t.eval L env).map c).trace, ((t.eval L env).map c).fault) := by
      rw [hrun, exec_append_ok hexec, hconv, fault_ok hr, append_nil]
    exact evaluate_eq hall fun w hw => hread w (hready w hw) fun _ => rfl

end

/-- One evaluation, from any values left in the slots. -/
theorem evaluate_exact {expectedType : Option Ty} (hE : compile L t expectedType = some E)
    (hsafe : t.Safe L env) (σ : Nat → Value) :
    (evaluate E env σ).2 = meaning L t expectedType env := by
  obtain ⟨E₀, hE₀, hE⟩ := Option.bind_eq_some_iff.mp hE
  have htype := (root_appends hE₀).typeOf
  cases expectedType with
  | none =>
    obtain rfl := Option.some.inj hE
    exact evaluate_unconverted hE₀ hsafe σ
  | some ty =>
    simp only [meaning, htype]
    dsimp only at hE
    split at hE
    · rename_i heq
      obtain rfl := Option.some.inj hE
      rw [if_pos heq]
      exact evaluate_unconverted hE₀ hsafe σ
    · rename_i hne
      obtain ⟨c, hc, rfl⟩ := Option.map_eq_some_iff.mp hE
      rw [if_neg hne, hc]
      exact evaluate_converted hE₀ hsafe ty c σ

end Root

/-! ## Sequences of evaluations -/

/-- Every evaluation in one context gives what the tree means under its bindings, and runs the
functions that short-circuiting runs, if the tree is safe for the bindings of each. -/
theorem compiled_exact [DecidableEq Ty] {t : Tree Ty} {expectedType : Option Ty}
    {E : Compiled Ty ε} (hE : compile L t expectedType = some E) (envs : List (Bind Ty → Value))
    (hsafe : ∀ env ∈ envs, t.Safe L env) (σ : Nat → Value) :
    evaluations E envs σ = envs.map (meaning L t expectedType) := by
  induction envs generalizing σ with
  | nil => rfl
  | cons env envs ih =>
    obtain ⟨hhead, htail⟩ := forall_mem_cons.mp hsafe
    rw [evaluations, map_cons, evaluate_exact hE hhead, ih htail]

/-! ## A small library -/

deriving instance DecidableEq for Run

inductive Scalar where
  | void
  | bool
  | int64
deriving DecidableEq, Repr

/-- The errors of the integer functions. -/
inductive Fault where
  | divisionByZero
deriving DecidableEq, Repr

/-- `DIVISION_OP` for `/`, which rounds towards zero. -/
def divide : List Value → Except Fault Value
  | [.int a, .int b] => if b = 0 then .error .divisionByZero else .ok (.int (a.tdiv b))
  | _ => .ok (.null 0)

/-- `BINARY_BOP` for a comparison. -/
def compare (op : Int → Int → Bool) : List Value → Except Fault Value
  | [.int a, .int b] => .ok (.bool (op a b))
  | _ => .ok (.null 0)

/-- The conversion from `int64` to `bool`. -/
def int64ToBool : Value → Value
  | .null r => .null r
  | v => .bool v.getBool

/-- The functions of the library for `bool` and `int64`; the first operand of `and` may be an
integer, which is converted. -/
def lookup : Name → List Scalar → Option (Description Scalar Fault)
  | .and, [.bool, .bool] => some ⟨logicalAnd, .bool, []⟩
  | .and, [.int64, .bool] => some ⟨logicalAnd, .bool, [some (.bool, int64ToBool), none]⟩
  | .or, [.bool, .bool] => some ⟨logicalOr, .bool, []⟩
  | .iif, [.bool, a, b] => if a = b then some ⟨iif, a, []⟩ else none
  | .named name, [.int64, .int64] =>
    if name = "/" then some ⟨divide, .int64, []⟩
    else if name = ">" then some ⟨compare (fun a b => b < a), .bool, []⟩
    else if name = "=" then some ⟨compare (fun a b => a = b), .bool, []⟩
    else none
  | _, _ => none

section Lookup

variable {name : Name} {ts : List Scalar} {d : Description Scalar Fault}

theorem lookup_converters (h : lookup name ts = some d) : d.converters.length ≤ ts.length := by
  unfold lookup at h
  grind

theorem lookup_and (h : lookup .and ts = some d) : d.function = logicalAnd ∧ ts.length = 2 := by
  unfold lookup at h
  grind

theorem lookup_or (h : lookup .or ts = some d) : d.function = logicalOr ∧ ts.length = 2 := by
  unfold lookup at h
  grind

theorem lookup_iif (h : lookup .iif ts = some d) :
    d.function = iif ∧ ts.length = 3 ∧ d.converter 0 = none := by
  unfold lookup at h
  grind [Description.converter]

end Lookup

def scalars : Library Scalar Fault where
  void := .void
  findFunction := lookup
  findConverter := fun a b => if a = .int64 ∧ b = .bool then some int64ToBool else none
  initial
    | .void => .null 0
    | .bool => .bool false
    | .int64 => .int 0
  converters_le := lookup_converters
  find_and := lookup_and
  find_or := lookup_or
  find_iif := lookup_iif

def attr (id : Nat) (ty : Scalar) : Bind Scalar := ⟨.attribute, 0, id, ty⟩

/-- The bindings of a boolean attribute 0 and two integer attributes 1 and 2. -/
def bindings (b x n : Value) (a : Bind Scalar) : Value :=
  match a.resolvedId with
  | 0 => b
  | 1 => x
  | _ => n

/-- `iif(x = 0, 0, 10 / x)`. -/
def quotient : Tree Scalar :=
  .call .iif [.call (.named "=") [.ref (attr 1 .int64), .const .int64 (.int 0)],
    .const .int64 (.int 0),
    .call (.named "/") [.const .int64 (.int 10), .ref (attr 1 .int64)]]

/-- `10 / x > 1`. -/
def small : Tree Scalar :=
  .call (.named ">") [.call (.named "/") [.const .int64 (.int 10), .ref (attr 1 .int64)],
    .const .int64 (.int 1)]

/-- `iif(x = 0, false, b and 10 / x > 1)`. -/
def nested : Tree Scalar :=
  .call .iif [.call (.named "=") [.ref (attr 1 .int64), .const .int64 (.int 0)],
    .const .bool (.bool false), .call .and [.ref (attr 0 .bool), small]]

theorem quotient_safe (env : Bind Scalar → Value) : quotient.Safe scalars env := by
  simp [quotient, Tree.Safe, SafeArgs, Tree.Quiet, QuietArgs, guarded]

/-- Evaluations of an expression in a new context. -/
def runs (t : Tree Scalar) (envs : List (Bind Scalar → Value)) :
    Option (List (Run Fault Value)) :=
  (compile scalars t none).map fun E => evaluations E envs (initialValues scalars E)

theorem compiled_exact_quotient :
    runs quotient [bindings (.null 0) (.int 0) (.null 0), bindings (.null 0) (.int 5) (.null 0)] =
      some [⟨[.named "=", .iif], .ok (.int 0)⟩,
        ⟨[.named "=", .named "/", .iif], .ok (.int 2)⟩] := by
  obtain ⟨E, hE⟩ := Option.isSome_iff_exists.mp
    (show (compile scalars quotient none).isSome = true by decide +kernel)
  rw [runs, hE, Option.map_some, compiled_exact hE _ fun env _ => quotient_safe env]
  decide +kernel

/-- Three ways to go wrong. The operand `10 / x > 1` of the inner `and` has that `and`'s first
operand as its skip index and forgets the branch of `iif` it is in. Under `b` null it is
skipped, and the value of the evaluation before is used. With an integer in place of `b` it is
tested before the integer has been converted. -/
theorem compiled_runs_unselected :
    (runs nested [bindings (.bool true) (.int 0) (.int 0)] =
        some [⟨[.named "=", .named "/"], .error .divisionByZero⟩] ∧
      meaning scalars nested none (bindings (.bool true) (.int 0) (.int 0)) =
        ⟨[.named "=", .iif], .ok (.bool false)⟩) ∧
    (runs (.call .and [.ref (attr 0 .bool), small])
        [bindings (.bool true) (.int 2) (.int 0), bindings (.null 0) (.int 10) (.int 0)] =
        some [⟨[.named "/", .named ">", .and], .ok (.bool true)⟩, ⟨[.and], .ok (.null 0)⟩] ∧
      meaning scalars (.call .and [.ref (attr 0 .bool), small]) none
        (bindings (.null 0) (.int 10) (.int 0)) =
        ⟨[.named "/", .named ">", .and], .ok (.bool false)⟩) ∧
    (runs (.call .and [.ref (attr 2 .int64), small])
        [bindings (.bool true) (.int 2) (.int 1)] = some [⟨[.and], .ok (.bool false)⟩] ∧
      meaning scalars (.call .and [.ref (attr 2 .int64), small]) none
        (bindings (.bool true) (.int 2) (.int 1)) =
        ⟨[.named "/", .named ">", .and], .ok (.bool true)⟩) := by
  decide +kernel

end SciDB.Query.Expression
