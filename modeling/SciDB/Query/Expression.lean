import Mathlib.Data.List.Basic
import Mathlib.Logic.Function.Basic
import SciDB.Lib.Kleene

/-!
# Compiled expressions

`Expression` (`src/query/Expression.cpp`) flattens a logical expression into a vector of
functions over one vector of argument slots.  `internalCompile` pushes the functions in
preorder and reserves slots for their arguments, `insertConverter` reroutes a slot through a
type converter, and `evaluate` runs the functions backwards.  A function in the second
operand of `and` or `or`, or in a branch of `iif`, remembers one slot and one value that make
it skippable.  The slots of an `ExpressionContext` persist between evaluations.

Main definitions:

- {lit}`internalCompile`, {lit}`compile`: the compiler.
- {lit}`evaluate`, {lit}`evaluations`: the backward loop, and a sequence of evaluations in one
  context, with the names of the functions that were run.
- {lit}`Tree.eval`: what a logical expression means, and which functions it runs.
-/

namespace SciDB.Query.Expression

open Kleene

/-! ## Values and functions -/

/-- A value: missing for a reason, boolean, or an integer of any width. -/
inductive Value where
  | null (reason : Nat)
  | bool (b : Bool)
  | int (n : Int)
deriving DecidableEq, Repr

namespace Value

def isNull : Value → Bool
  | null _ => true
  | _ => false

/-- `getBool`.  What it reads from a null is never used. -/
def getBool : Value → Bool
  | null _ => false
  | bool b => b
  | int n => n != 0

/-- The truth value of a boolean, `none` if it is null. -/
def truth (v : Value) : Option Bool := if v.isNull then none else some v.getBool

/-- The test of a condition in `evaluate` and `iif`, where null counts as false. -/
def holds (v : Value) : Bool := if v.isNull then false else v.getBool

/-- The boolean with a truth value; `setNull` without a reason. -/
def ofTruth : Option Bool → Value
  | none => null 0
  | some b => bool b

end Value

/-- Function names.  Those that the compiler treats apart are compared without regard to
upper and lower case. -/
inductive Name where
  | and
  | or
  | iif
  | named (name : String)
deriving DecidableEq, Repr

section Builtin

variable {ε : Type}

/-- `LOGICAL_AND`. -/
def logicalAnd : List Value → Except ε Value
  | [a, b] =>
    if (a.isNull && b.isNull) || (a.isNull && b.getBool) || (a.getBool && b.isNull) then
      .ok (.null 0)
    else .ok (.bool (a.getBool && b.getBool))
  | _ => .ok (.null 0)

/-- `LOGICAL_OR`. -/
def logicalOr : List Value → Except ε Value
  | [a, b] =>
    if (a.isNull && b.isNull) || (a.isNull && !b.getBool) || (!a.getBool && b.isNull) then
      .ok (.null 0)
    else .ok (.bool (a.getBool || b.getBool))
  | _ => .ok (.null 0)

/-- The function `iif`. -/
def iif : List Value → Except ε Value
  | [c, a, b] => if !c.isNull && c.getBool then .ok a else .ok b
  | _ => .ok (.null 0)

end Builtin

/-- What `findFunction` returns: the function, its output type, and for each argument the
converter to insert with the type it converts to. -/
structure Description (Ty ε : Type) where
  function : List Value → Except ε Value
  output : Ty
  converters : List (Option (Ty × (Value → Value)))

/-- The converter of an argument. -/
def Description.converter {Ty ε : Type} (d : Description Ty ε) (i : Nat) :
    Option (Value → Value) :=
  ((d.converters[i]?).join).map Prod.snd

/-- The function library.  Converters do not raise errors.  `iif` is only found if its first
argument is boolean. -/
structure Library (Ty ε : Type) where
  void : Ty
  findFunction : Name → List Ty → Option (Description Ty ε)
  findConverter : Ty → Ty → Option (Value → Value)
  /-- the value a slot of a type starts with -/
  initial : Ty → Value
  converters_le : ∀ {name ts d}, findFunction name ts = some d → d.converters.length ≤ ts.length
  find_and : ∀ {ts d}, findFunction .and ts = some d → d.function = logicalAnd ∧ ts.length = 2
  find_or : ∀ {ts d}, findFunction .or ts = some d → d.function = logicalOr ∧ ts.length = 2
  find_iif : ∀ {ts d}, findFunction .iif ts = some d →
    d.function = iif ∧ ts.length = 3 ∧ d.converter 0 = none

/-! ## Logical expressions -/

/-- `BindInfo::kind`. -/
inductive BindKind where
  | attribute
  | coordinate
  | value
deriving DecidableEq, Repr

/-- `BindInfo`: a resolved attribute, dimension or variable. -/
structure Bind (Ty : Type) where
  kind : BindKind
  inputNo : Nat
  resolvedId : Nat
  type : Ty
deriving DecidableEq, Repr

inductive Tree (Ty : Type) where
  | ref (b : Bind Ty)
  | const (type : Ty) (value : Value)
  | call (name : Name) (args : List (Tree Ty))

variable {Ty ε : Type}

/-! ## The compiler -/

structure CompiledFunction (ε : Type) where
  function : List Value → Except ε Value
  /-- `none` for a converter -/
  functionName : Option Name
  argIndex : Nat
  argCount : Nat
  resultIndex : Nat
  skipIndex : Nat
  skipValue : Bool

structure Argument (Ty : Type) where
  type : Ty
  isConst : Bool
  value : Value

/-- A compiled expression; `_bindings` and `_contextNo` are parallel and kept together. -/
structure Compiled (Ty ε : Type) where
  functions : List (CompiledFunction ε)
  arguments : List (Argument Ty)
  contexts : List (Bind Ty × List Nat)

/-- The loop over the bindings for an attribute reference. -/
def addContext [DecidableEq Ty] (b : Bind Ty) (resultIndex : Nat) :
    List (Bind Ty × List Nat) → List (Bind Ty × List Nat)
  | [] => [(b, [resultIndex])]
  | c :: cs =>
    if c.1 = b then (c.1, c.2 ++ [resultIndex]) :: cs else c :: addContext b resultIndex cs

/-- The first function that outputs into one slot is made to output into another. -/
def retarget (old new : Nat) : List (CompiledFunction ε) → List (CompiledFunction ε)
  | [] => []
  | f :: fs =>
    if f.resultIndex = old then { f with resultIndex := new } :: fs
    else f :: retarget old new fs

/-- The first context that is bound to one slot is bound to another. -/
def moveContext (old new : Nat) :
    List (Bind Ty × List Nat) → List (Bind Ty × List Nat)
  | [] => []
  | c :: cs =>
    if old ∈ c.2 then (c.1, c.2.replace old new) :: cs else c :: moveContext old new cs

/-- The function pointer of a converter. -/
def convertFirst (converter : Value → Value) : List Value → Except ε Value
  | v :: _ => .ok (converter v)
  | [] => .ok (.null 0)

/-- The position behind a function, where `none` is the index `-1`. -/
def insertPosition : Option Nat → Nat
  | none => 0
  | some i => i + 1

/-- `Expression::insertConverter`; `functionIndex` is `none` for `-1`. -/
def insertConverter (newType : Ty) (converter : Value → Value) (resultIndex : Nat)
    (functionIndex : Option Nat) (E : Compiled Ty ε) : Compiled Ty ε :=
  let start := functionIndex.getD 0
  let argIndex := E.arguments.length
  -- the slot is copied to a new one and gets the new type
  let arguments := (E.arguments ++ (E.arguments[resultIndex]?).toList).modify resultIndex
    fun a => { a with type := newType }
  let f : CompiledFunction ε :=
    { function := convertFirst converter, functionName := none, argIndex, argCount := 1,
      resultIndex, skipIndex := 0, skipValue := false }
  match (E.functions.drop start).find? fun g => g.resultIndex = resultIndex with
  | some g =>
    { functions :=
        (E.functions.take start ++ retarget resultIndex argIndex (E.functions.drop start)).insertIdx
          (insertPosition functionIndex)
          { f with skipIndex := g.skipIndex, skipValue := g.skipValue }
      arguments, contexts := E.contexts }
  | none =>
    if E.contexts.any fun c => resultIndex ∈ c.2 then
      { functions := E.functions.insertIdx (insertPosition functionIndex) f
        arguments, contexts := moveContext resultIndex argIndex E.contexts }
    else
      -- a constant is converted in place and only once
      { E with
        arguments := E.arguments.modify resultIndex fun a =>
          { a with type := newType, value := converter a.value } }

/-- The loop over the converters. -/
def insertConverters (argIndex functionIndex : Nat) :
    List (Option (Ty × (Value → Value))) → Nat → Compiled Ty ε → Compiled Ty ε
  | [], _, E => E
  | none :: cs, i, E => insertConverters argIndex functionIndex cs (i + 1) E
  | some (newType, converter) :: cs, i, E =>
    insertConverters argIndex functionIndex cs (i + 1)
      (insertConverter newType converter (argIndex + i) (some functionIndex) E)

/-- The skip index and skip value for an argument. -/
def guard (name : Name) (argIndex i skipIndex : Nat) (skipValue : Bool) : Nat × Bool :=
  match name, i with
  | .iif, 2 => (argIndex, true)
  | .iif, 1 => (argIndex, false)
  | .or, 1 => (argIndex, true)
  | .and, 1 => (argIndex, false)
  | _, _ => (skipIndex, skipValue)

/-- The type of a slot. -/
def Compiled.typeAt (void : Ty) (E : Compiled Ty ε) (i : Nat) : Ty :=
  ((E.arguments[i]?).map (·.type)).getD void

/-- The function of a call is pushed, and space for its arguments is reserved. -/
def Compiled.reserve (void : Ty) (f : CompiledFunction ε) (n : Nat) (E : Compiled Ty ε) :
    Compiled Ty ε :=
  { E with
    functions := E.functions ++ [f]
    arguments := E.arguments ++ List.replicate n ⟨void, false, .null 0⟩ }

mutual

/-- `Expression::internalCompile` outside of the tile mode. -/
def internalCompile [DecidableEq Ty] (L : Library Ty ε) :
    Tree Ty → Nat → Nat → Bool → Compiled Ty ε → Option (Compiled Ty ε)
  | .ref b, resultIndex, _, _, E =>
    some { E with
      contexts := addContext b resultIndex E.contexts
      arguments := E.arguments.modify resultIndex fun a => { a with type := b.type } }
  | .const type value, resultIndex, _, _, E =>
    some { E with
      arguments := E.arguments.modify resultIndex fun _ => ⟨type, true, value⟩ }
  | .call name args, resultIndex, skipIndex, skipValue, E =>
    let argIndex := E.arguments.length
    let functionIndex := E.functions.length
    let f : CompiledFunction ε :=
      { function := fun _ => .ok (.null 0), functionName := some name, argIndex,
        argCount := args.length, resultIndex, skipIndex, skipValue }
    let E₁ := E.reserve L.void f args.length
    (compileArgs L name argIndex skipIndex skipValue args 0 E₁).bind fun E₂ =>
      let types := (List.range args.length).map fun i => E₂.typeAt L.void (argIndex + i)
      (L.findFunction name types).map fun d =>
        let E₃ : Compiled Ty ε :=
          { E₂ with
            functions := E₂.functions.modify functionIndex fun f =>
              { f with function := d.function } }
        let E₄ := insertConverters argIndex functionIndex d.converters 0 E₃
        { E₄ with
          arguments := E₄.arguments.modify resultIndex fun a => { a with type := d.output } }

/-- The arguments of a call from the `i`-th on, which are compiled in reverse order. -/
def compileArgs [DecidableEq Ty] (L : Library Ty ε) (name : Name) (argIndex skipIndex : Nat)
    (skipValue : Bool) : List (Tree Ty) → Nat → Compiled Ty ε → Option (Compiled Ty ε)
  | [], _, E => some E
  | a :: as, i, E =>
    (compileArgs L name argIndex skipIndex skipValue as (i + 1) E).bind fun E' =>
      let g := guard name argIndex i skipIndex skipValue
      internalCompile L a (argIndex + i) g.1 g.2 E'

end

/-- `Expression::compileCommon`. -/
def compile [DecidableEq Ty] (L : Library Ty ε) (expr : Tree Ty) (expectedType : Option Ty) :
    Option (Compiled Ty ε) :=
  (internalCompile L expr 0 0 false ⟨[], [⟨L.void, false, .null 0⟩], []⟩).bind fun E =>
    match expectedType with
    | none => some E
    | some ty =>
      if E.typeAt L.void 0 = ty then some E
      else
        (L.findConverter (E.typeAt L.void 0) ty).map fun converter =>
          insertConverter ty converter 0 none E

/-! ## Evaluation -/

/-- What a slot points to. -/
inductive Kind (Ty : Type) where
  | var (b : Bind Ty)
  | const (value : Value)
  | temp

/-- The pointers that the constructor of `ExpressionContext` sets. -/
def Compiled.kind (E : Compiled Ty ε) (i : Nat) : Kind Ty :=
  match E.contexts.find? fun c => i ∈ c.2 with
  | some c => .var c.1
  | none =>
    match E.arguments[i]? with
    | some a => if a.isConst then .const a.value else .temp
    | none => .temp

/-- The value in a slot, for the current bindings and temporary values. -/
def read (K : Nat → Kind Ty) (env : Bind Ty → Value) (σ : Nat → Value) (i : Nat) : Value :=
  match K i with
  | .var b => env b
  | .const v => v
  | .temp => σ i

/-- Whether a skip index and value make a function skippable. -/
def skips (K : Nat → Kind Ty) (env : Bind Ty → Value) (σ : Nat → Value) (skipIndex : Nat)
    (skipValue : Bool) : Bool :=
  skipIndex != 0 && skipValue == (read K env σ skipIndex).holds

/-- The arguments of a function. -/
def argsOf (K : Nat → Kind Ty) (env : Bind Ty → Value) (σ : Nat → Value)
    (f : CompiledFunction ε) : List Value :=
  (List.range f.argCount).map fun i => read K env σ (f.argIndex + i)

/-- The loop of `evaluate` over functions given in the order in which they are run: the
temporary values, the functions that were run, and the error if one was raised. -/
def exec (K : Nat → Kind Ty) (env : Bind Ty → Value) :
    List (CompiledFunction ε) → (Nat → Value) → (Nat → Value) × List Name × Option ε
  | [], σ => (σ, [], none)
  | f :: fs, σ =>
    if skips K env σ f.skipIndex f.skipValue then exec K env fs σ
    else
      match f.function (argsOf K env σ f) with
      | .error e => (σ, f.functionName.toList, some e)
      | .ok v =>
        let r := exec K env fs (Function.update σ f.resultIndex v)
        (r.1, f.functionName.toList ++ r.2.1, r.2.2)

/-- An outcome: the functions that were run, and the value or the error. -/
structure Run (ε α : Type) where
  trace : List Name
  result : Except ε α

/-- `Expression::evaluate`. -/
def evaluate (E : Compiled Ty ε) (env : Bind Ty → Value) (σ : Nat → Value) :
    (Nat → Value) × Run ε Value :=
  let r := exec E.kind env E.functions.reverse σ
  (r.1, ⟨r.2.1, match r.2.2 with
    | some e => .error e
    | none => .ok (read E.kind env r.1 0)⟩)

/-- One evaluation after another in one context. -/
def evaluations (E : Compiled Ty ε) :
    List (Bind Ty → Value) → (Nat → Value) → List (Run ε Value)
  | [], _ => []
  | env :: envs, σ =>
    (evaluate E env σ).2 :: evaluations E envs (evaluate E env σ).1

/-- The temporary values of a new `ExpressionContext`. -/
def initialValues (L : Library Ty ε) (E : Compiled Ty ε) (i : Nat) : Value :=
  L.initial (E.typeAt L.void i)

/-! ## What an expression means -/

namespace Run

variable {α β : Type}

def pure (a : α) : Run ε α := ⟨[], .ok a⟩

/-- First one outcome, then the next unless an error was raised. -/
def bind (r : Run ε α) (f : α → Run ε β) : Run ε β :=
  match r.result with
  | .error e => ⟨r.trace, .error e⟩
  | .ok a => ⟨r.trace ++ (f a).trace, (f a).result⟩

def map (f : α → β) (r : Run ε α) : Run ε β := r.bind fun a => pure (f a)

end Run

/-- The value of an argument after its converter. -/
def converted (d : Description Ty ε) (i : Nat) (r : Run ε Value) : Run ε Value :=
  match d.converter i with
  | none => r
  | some c => r.map c

/-- The arguments of a function from the `i`-th on, from left to right. -/
def sequence (d : Description Ty ε) : Nat → List (Run ε Value) → Run ε (List Value)
  | _, [] => .pure []
  | i, r :: rs => (converted d i r).bind fun v => (sequence d (i + 1) rs).map (v :: ·)

/-- A three-valued connective that looks at its second operand only if the first is not
`stop`, which decides. -/
def connective (name : Name) (stop : Bool) (op : Option Bool → Option Bool → Option Bool)
    (d : Description Ty ε) (a b : Run ε Value) : Run ε Value :=
  (converted d 0 a).bind fun x =>
    if x.truth = some stop then ⟨[name], .ok (.bool stop)⟩
    else (converted d 1 b).bind fun y => ⟨[name], .ok (.ofTruth (op x.truth y.truth))⟩

/-- A call from what its arguments give; `iif` looks at one branch. -/
def callRun (name : Name) (d : Description Ty ε) (rs : List (Run ε Value)) : Run ε Value :=
  match name, rs with
  | .and, [a, b] => connective .and false both d a b
  | .or, [a, b] => connective .or true either d a b
  | .iif, [c, a, b] =>
    (converted d 0 c).bind fun x =>
      if x.truth = some true then (converted d 1 a).bind fun y => ⟨[.iif], .ok y⟩
      else (converted d 2 b).bind fun y => ⟨[.iif], .ok y⟩
  | name, rs => (sequence d 0 rs).bind fun vs => ⟨[name], d.function vs⟩

mutual

/-- The type of an expression, if the library has its functions. -/
def Tree.typeOf (L : Library Ty ε) : Tree Ty → Option Ty
  | .ref b => some b.type
  | .const type _ => some type
  | .call name args =>
    ((typesOf L args).bind (L.findFunction name)).map (·.output)

def typesOf (L : Library Ty ε) : List (Tree Ty) → Option (List Ty)
  | [] => some []
  | a :: as => (a.typeOf L).bind fun t => (typesOf L as).map (t :: ·)

end

/-- The function that a call means. -/
def describe (L : Library Ty ε) (name : Name) (args : List (Tree Ty)) :
    Option (Description Ty ε) :=
  (typesOf L args).bind (L.findFunction name)

mutual

/-- The value of an expression under given bindings, and the functions that its evaluation
with short-circuiting runs. -/
def Tree.eval (L : Library Ty ε) (env : Bind Ty → Value) : Tree Ty → Run ε Value
  | .ref b => .pure (env b)
  | .const _ v => .pure v
  | .call name args =>
    match describe L name args with
    | none => .pure (.null 0)
    | some d => callRun name d (evalArgs L env args)

def evalArgs (L : Library Ty ε) (env : Bind Ty → Value) : List (Tree Ty) → List (Run ε Value)
  | [] => []
  | a :: as => a.eval L env :: evalArgs L env as

end

/-- The value of an expression converted to the expected type. -/
def meaning [DecidableEq Ty] (L : Library Ty ε) (expr : Tree Ty) (expectedType : Option Ty)
    (env : Bind Ty → Value) : Run ε Value :=
  match expectedType, expr.typeOf L with
  | some ty, some t =>
    if t = ty then expr.eval L env
    else
      match L.findConverter t ty with
      | none => expr.eval L env
      | some c => (expr.eval L env).map c
  | _, _ => expr.eval L env

end SciDB.Query.Expression
