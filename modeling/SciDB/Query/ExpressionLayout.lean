import SciDB.Query.Expression

/-!
# The layout of compiled code

The functions of a compiled expression lie in segments, one for each call, and every segment
owns an interval of slots beside the slot of its result.  This file states that layout over
the kinds of the slots, the conditions under which it is run as it should be, and what the
segment and the converter of one argument do.

Main definitions and results:

- {lit}`Laid`: a segment is laid out for a tree.
- {lit}`Tree.Quiet`, {lit}`Tree.Safe`: the trees that can be excluded, and those that can be
  evaluated, under given bindings.
- Theorems {lit}`arg_exec`, {lit}`arg_idle`, {lit}`conv_exec`: one argument of a call.
-/

namespace SciDB.Query.Expression

open List

variable {Ty ε : Type}

/-! ## Layout -/

def Tree.isCall : Tree Ty → Bool
  | .call _ _ => true
  | _ => false

def Tree.isConst : Tree Ty → Bool
  | .const _ _ => true
  | _ => false

/-- An argument that is not constant goes to a slot of its own if it has a converter. -/
def usesSlot (conv : Option (Value → Value)) (a : Tree Ty) : Bool := conv.isSome && !a.isConst

def nextSlot (conv : Option (Value → Value)) (a : Tree Ty) (k : Nat) : Nat :=
  if usesSlot conv a then k + 1 else k

/-- The function that `insertConverter` makes. -/
def converterAt (c : Value → Value) (argIndex resultIndex skipIndex : Nat) (skipValue : Bool) :
    CompiledFunction ε :=
  { function := convertFirst c, functionName := none, argIndex, argCount := 1, resultIndex,
    skipIndex, skipValue }

/-- The function of a call. -/
def callAt (name : Name) (function : List Value → Except ε Value)
    (argIndex argCount resultIndex skipIndex : Nat) (skipValue : Bool) : CompiledFunction ε :=
  { function, functionName := some name, argIndex, argCount, resultIndex, skipIndex, skipValue }

/-- An argument in its slot, or in the slot `k` with a converter behind it; `P` says that the
argument itself is laid out for a slot. -/
def ArgLaid (K : Nat → Kind Ty) (conv : Option (Value → Value)) (a : Tree Ty)
    (P : Nat → Prop) (slot k : Nat) (g : Nat × Bool) (lo hi : Nat)
    (code convCode : List (CompiledFunction ε)) : Prop :=
  match conv, a with
  | none, _ => P slot ∧ convCode = []
  | some c, .const _ v => K slot = .const (c v) ∧ hi = lo ∧ code = [] ∧ convCode = []
  | some c, .ref _ => P k ∧ K slot = .temp ∧ convCode = [converterAt c k slot 0 false]
  | some c, .call _ _ => P k ∧ K slot = .temp ∧ convCode = [converterAt c k slot g.1 g.2]

mutual

/-- The segment `code` computes a tree into `slot`; it owns the slots from `lo` to `hi`. -/
def Laid (L : Library Ty ε) (K : Nat → Kind Ty) :
    Tree Ty → Nat → Nat × Bool → Nat → Nat → List (CompiledFunction ε) → Prop
  | .ref b, slot, _, lo, hi, code => K slot = .var b ∧ hi = lo ∧ code = []
  | .const _ v, slot, _, lo, hi, code => K slot = .const v ∧ hi = lo ∧ code = []
  | .call name args, slot, g, lo, hi, code =>
    K slot = .temp ∧ ∃ d mid argCode convCode, describe L name args = some d ∧
      LaidArgs L K name d lo g args 0 (lo + args.length) mid mid hi argCode convCode ∧
      code = callAt name d.function lo args.length slot g.1 g.2 :: (convCode ++ argCode)

/-- The arguments of a call from the `i`-th on.  Their segments own the slots from `lo` to
`hi`, and the slots from `klo` to `khi` are read by their converters. -/
def LaidArgs (L : Library Ty ε) (K : Nat → Kind Ty) (name : Name) (d : Description Ty ε)
    (argIndex : Nat) (g : Nat × Bool) : List (Tree Ty) → Nat → Nat → Nat → Nat → Nat →
    List (CompiledFunction ε) → List (CompiledFunction ε) → Prop
  | [], _, lo, hi, klo, khi, code, convCode =>
    hi = lo ∧ khi = klo ∧ code = [] ∧ convCode = []
  | a :: as, i, lo, hi, klo, khi, code, convCode =>
    ∃ m codeA codeR convA convR,
      LaidArgs L K name d argIndex g as (i + 1) lo m (nextSlot (d.converter i) a klo) khi
        codeR convR ∧
      ArgLaid K (d.converter i) a
        (fun s => Laid L K a s (guard name argIndex i g.1 g.2) m hi codeA)
        (argIndex + i) klo (guard name argIndex i g.1 g.2) m hi codeA convA ∧
      code = codeR ++ codeA ∧ convCode = convR ++ convA

end

variable {a : Tree Ty} {conv : Option (Value → Value)} {k slot i : Nat} {σ σ' : Nat → Value}

/-- An argument is laid out for its slot or for that of its converter, or it is constant. -/
theorem ArgLaid.cases {K : Nat → Kind Ty} {P : Nat → Prop} {g : Nat × Bool} {lo hi : Nat}
    {code convCode : List (CompiledFunction ε)}
    (h : ArgLaid K conv a P slot k g lo hi code convCode) :
    P slot ∨ (usesSlot conv a = true ∧ P k) ∨ (hi = lo ∧ code = []) := by
  unfold ArgLaid at h
  split at h
  · exact .inl h.1
  · exact .inr (.inr ⟨h.2.1, h.2.2.1⟩)
  · exact .inr (.inl ⟨rfl, h.1⟩)
  · exact .inr (.inl ⟨rfl, h.1⟩)

theorem le_nextSlot (conv : Option (Value → Value)) (a : Tree Ty) (k : Nat) :
    k ≤ nextSlot conv a k := by
  rw [nextSlot]
  split <;> omega

theorem nextSlot_of_uses (h : usesSlot conv a = true) (k : Nat) : nextSlot conv a k = k + 1 := by
  rw [nextSlot, if_pos h]

variable {L : Library Ty ε} {K : Nat → Kind Ty} {P : Tree Ty → Prop}

mutual

theorem Laid.le {t : Tree Ty} {slot : Nat} {g : Nat × Bool} {lo hi : Nat}
    {code : List (CompiledFunction ε)} (h : Laid L K t slot g lo hi code) : lo ≤ hi := by
  cases t with
  | ref b =>
    rw [Laid] at h
    omega
  | const ty v =>
    rw [Laid] at h
    omega
  | call name args =>
    rw [Laid] at h
    obtain ⟨-, d, mid, argCode, convCode, -, hargs, -⟩ := h
    have := LaidArgs.le hargs
    omega

theorem LaidArgs.le {as : List (Tree Ty)} {name : Name} {d : Description Ty ε} {argIndex : Nat}
    {g : Nat × Bool} {i lo hi klo khi : Nat} {code convCode : List (CompiledFunction ε)}
    (h : LaidArgs L K name d argIndex g as i lo hi klo khi code convCode) :
    lo ≤ hi ∧ klo ≤ khi := by
  cases as with
  | nil =>
    rw [LaidArgs] at h
    omega
  | cons a as =>
    rw [LaidArgs] at h
    obtain ⟨m, codeA, codeR, convA, convR, hrest, harg, -, -⟩ := h
    have hr := LaidArgs.le hrest
    have hk := le_nextSlot (d.converter i) a klo
    have ha : m ≤ hi := by
      rcases harg.cases with h | ⟨-, h⟩ | h
      · exact Laid.le h
      · exact Laid.le h
      · exact Nat.le_of_eq h.1.symm
    omega

end

theorem ArgLaid.le {lo hi : Nat} {g g' : Nat × Bool} {code convCode : List (CompiledFunction ε)}
    (h : ArgLaid K conv a (fun s => Laid L K a s g lo hi code) slot k g' lo hi code convCode) :
    lo ≤ hi := by
  rcases h.cases with h | ⟨-, h⟩ | h
  · exact Laid.le h
  · exact Laid.le h
  · exact Nat.le_of_eq h.1.symm

/-! ## Conditions on the tree -/

/-- Whether an argument has a skip index of its own. -/
def guarded : Name → Nat → Bool
  | .iif, 1 => true
  | .iif, 2 => true
  | .or, 1 => true
  | .and, 1 => true
  | _, _ => false

mutual

/-- No call inside replaces the skip index it inherits. -/
def Tree.Quiet : Tree Ty → Prop
  | .ref _ => True
  | .const _ _ => True
  | .call name args => QuietArgs name args 0

def QuietArgs (name : Name) : List (Tree Ty) → Nat → Prop
  | [], _ => True
  | a :: as, i => (if guarded name i then a.isCall = false else a.Quiet) ∧ QuietArgs name as (i + 1)

end

mutual

/-- The operands that are not selected are quiet; a call is not the second operand of an `and`
whose first is null, nor of an `and` or `or` whose first operand needs a converter. -/
def Tree.Safe (L : Library Ty ε) (env : Bind Ty → Value) : Tree Ty → Prop
  | .ref _ => True
  | .const _ _ => True
  | .call name args =>
    ∀ d, describe L name args = some d →
      match name, args with
      | .and, [a, b] =>
        a.Safe L env ∧ (b.isCall = true → usesSlot (d.converter 0) a = false) ∧
          ∀ x, (converted d 0 (a.eval L env)).result = .ok x →
            match x.truth with
            | some false => b.Quiet
            | some true => b.Safe L env
            | none => b.isCall = false
      | .or, [a, b] =>
        a.Safe L env ∧ (b.isCall = true → usesSlot (d.converter 0) a = false) ∧
          ∀ x, (converted d 0 (a.eval L env)).result = .ok x →
            if x.truth = some true then b.Quiet else b.Safe L env
      | .iif, [c, a, b] =>
        c.Safe L env ∧
          ∀ x, (converted d 0 (c.eval L env)).result = .ok x →
            if x.truth = some true then a.Safe L env ∧ b.Quiet else a.Quiet ∧ b.Safe L env
      | _, args => SafeArgs L env args

/-- The arguments of any other function, up to the first that raises an error. -/
def SafeArgs (L : Library Ty ε) (env : Bind Ty → Value) : List (Tree Ty) → Prop
  | [] => True
  | a :: as => a.Safe L env ∧ ((∃ v, (a.eval L env).result = .ok v) → SafeArgs L env as)

end

/-! ## Induction over trees -/

mutual

/-- A property of trees holds if it is passed on from the arguments of a call to the call. -/
theorem Tree.forall_of_args (hr : ∀ b, P (.ref b))
    (hc : ∀ ty v, P (.const ty v))
    (hcall : ∀ name args, (∀ a ∈ args, P a) → P (.call name args)) : ∀ t, P t
  | .ref b => hr b
  | .const ty v => hc ty v
  | .call name args => hcall name args (Tree.forall_mem_of_args hr hc hcall args)

theorem Tree.forall_mem_of_args (hr : ∀ b, P (.ref b))
    (hc : ∀ ty v, P (.const ty v))
    (hcall : ∀ name args, (∀ a ∈ args, P a) → P (.call name args)) :
    ∀ ts : List (Tree Ty), ∀ t ∈ ts, P t
  | [] => forall_mem_nil _
  | a :: as => forall_mem_cons.mpr
    ⟨Tree.forall_of_args hr hc hcall a, Tree.forall_mem_of_args hr hc hcall as⟩

end

/-! ## Running code -/

variable {env : Bind Ty → Value} {tr : List Name}

theorem read_congr (h : σ' i = σ i) : read K env σ' i = read K env σ i := by
  simp [read, h]

theorem skips_congr (b : Bool) (h : i = 0 ∨ σ' i = σ i) :
    skips K env σ' i b = skips K env σ i b := by
  rcases h with rfl | h
  · rfl
  · simp [skips, read_congr h]

theorem read_update_self (h : K i = .temp) (v : Value) :
    read K env (Function.update σ i v) i = v := by
  simp [read, h]

/-- Code that ends without an error is followed by the rest. -/
theorem exec_append (a b : List (CompiledFunction ε)) (σ : Nat → Value) :
    exec K env (a ++ b) σ =
      match exec K env a σ with
      | (σ', tr, some e) => (σ', tr, some e)
      | (σ', tr, none) =>
        ((exec K env b σ').1, tr ++ (exec K env b σ').2.1, (exec K env b σ').2.2) := by
  induction a generalizing σ with
  | nil => rfl
  | cons f fs ih =>
    simp only [exec, cons_append]
    split
    · exact ih σ
    · split
      · rfl
      · rename_i v hv
        rw [ih]
        rcases exec K env fs (Function.update σ f.resultIndex v) with ⟨σ', tr, _ | e⟩
        · simp
        · rfl

theorem exec_append_ok {a b : List (CompiledFunction ε)}
    (h : exec K env a σ = (σ', tr, none)) :
    exec K env (a ++ b) σ =
      ((exec K env b σ').1, tr ++ (exec K env b σ').2.1, (exec K env b σ').2.2) := by
  rw [exec_append, h]

theorem exec_append_error {a b : List (CompiledFunction ε)} {e : ε}
    (h : exec K env a σ = (σ', tr, some e)) :
    exec K env (a ++ b) σ = (σ', tr, some e) := by
  rw [exec_append, h]

theorem exec_singleton (f : CompiledFunction ε) (σ : Nat → Value)
    (h : skips K env σ f.skipIndex f.skipValue = false) :
    exec K env [f] σ =
      match f.function (argsOf K env σ f) with
      | .error e => (σ, f.functionName.toList, some e)
      | .ok v => (Function.update σ f.resultIndex v, f.functionName.toList, none) := by
  rw [exec, h]
  cases f.function (argsOf K env σ f) with
  | error e => rfl
  | ok v => simp [exec]

/-- A converter that is not skipped. -/
theorem exec_converterAt (c : Value → Value) (k slot : Nat) (g : Nat × Bool) (σ : Nat → Value)
    (h : skips K env σ g.1 g.2 = false) :
    exec K env [(converterAt c k slot g.1 g.2 : CompiledFunction ε)] σ =
      (Function.update σ slot (c (read K env σ k)), [], none) := by
  rw [exec_singleton _ _ h]
  rfl

namespace Run

/-- The error of an outcome. -/
def fault {α : Type} (r : Run ε α) : Option ε :=
  match r.result with
  | .error e => some e
  | .ok _ => none

variable {α β : Type}

variable {r : Run ε α} {e : ε} {a : α}

theorem bind_ok (h : r.result = .ok a) (f : α → Run ε β) :
    r.bind f = ⟨r.trace ++ (f a).trace, (f a).result⟩ := by
  simp [bind, h]

theorem bind_error (h : r.result = .error e) (f : α → Run ε β) :
    r.bind f = ⟨r.trace, .error e⟩ := by
  simp [bind, h]

theorem fault_ok (h : r.result = .ok a) : r.fault = none := by
  simp [fault, h]

theorem fault_error (h : r.result = .error e) : r.fault = some e := by
  simp [fault, h]

theorem trace_map (r : Run ε α) (f : α → β) : (r.map f).trace = r.trace := by
  cases h : r.result <;> simp [map, bind, h, pure]

theorem fault_map (r : Run ε α) (f : α → β) : (r.map f).fault = r.fault := by
  cases h : r.result <;> simp [map, bind, h, pure, fault]

theorem map_bind {γ : Type} (r : Run ε α) (f : α → Run ε β) (h : β → γ) :
    (r.bind f).map h = r.bind fun a => (f a).map h := by
  cases hr : r.result with
  | error e => simp [map, bind, hr]
  | ok a => cases hf : (f a).result <;> simp [map, bind, hr, hf]

theorem map_eq_ok {f : α → β} {b : β} :
    (r.map f).result = .ok b ↔ ∃ a, r.result = .ok a ∧ f a = b := by
  cases h : r.result <;> simp [map, bind, h, pure]

end Run

/-! ## One argument -/

/-- A segment that is selected runs the functions of its tree and leaves the value of the
tree; it changes no slots but its own. -/
def Computes (L : Library Ty ε) (K : Nat → Kind Ty) (env : Bind Ty → Value) (t : Tree Ty)
    (slot : Nat) (g : Nat × Bool) (lo hi : Nat) (code : List (CompiledFunction ε)) : Prop :=
  ∀ σ, 0 < lo → (slot < lo ∨ hi ≤ slot) → (g.1 = 0 ∨ g.1 < lo ∧ g.1 ≠ slot) →
    (t.isCall = true → skips K env σ g.1 g.2 = false) →
    ∃ σ', exec K env code.reverse σ = (σ', (t.eval L env).trace, (t.eval L env).fault) ∧
      (∀ v, (t.eval L env).result = .ok v → read K env σ' slot = v) ∧
      ∀ j, j ≠ slot → (j < lo ∨ hi ≤ j) → σ' j = σ j

/-- A segment that is not selected runs no function of its tree. -/
def Idles (K : Nat → Kind Ty) (env : Bind Ty → Value) (t : Tree Ty) (slot : Nat)
    (g : Nat × Bool) (lo hi : Nat) (code : List (CompiledFunction ε)) : Prop :=
  ∀ σ, 0 < lo → (slot < lo ∨ hi ≤ slot) → (g.1 = 0 ∨ g.1 < lo ∧ g.1 ≠ slot) →
    (t.isCall = true → skips K env σ g.1 g.2 = true) →
    ∃ σ', exec K env code.reverse σ = (σ', [], none) ∧ ∀ j, (j < lo ∨ hi ≤ j) → σ' j = σ j

/-- The value of an argument is in its slot, or will be after its converter has run. -/
def ArgReady (K : Nat → Kind Ty) (env : Bind Ty → Value) (σ : Nat → Value)
    (conv : Option (Value → Value)) (a : Tree Ty) (slot k : Nat) (v : Value) : Prop :=
  match conv, a with
  | none, _ => read K env σ slot = v
  | some _, .const _ _ => read K env σ slot = v
  | some c, .ref _ => c (read K env σ k) = v
  | some c, .call _ _ => c (read K env σ k) = v

theorem ArgReady.congr {v : Value} (h : ArgReady K env σ conv a slot k v) (hslot : σ' slot = σ slot)
    (hk : usesSlot conv a = true → σ' k = σ k) : ArgReady K env σ' conv a slot k v := by
  unfold ArgReady at h ⊢
  split at h
  · rwa [read_congr hslot]
  · rwa [read_congr hslot]
  · rwa [read_congr (hk rfl)]
  · rwa [read_congr (hk rfl)]

section Arg

variable {d : Description Ty ε} {i : Nat} {a : Tree Ty} {slot k lo hi : Nat} {g : Nat × Bool}
  {code convCode : List (CompiledFunction ε)}

theorem arg_exec
    (harg : ArgLaid K (d.converter i) a (fun s => Laid L K a s g lo hi code) slot k g lo hi
      code convCode)
    (ih : ∀ s, Laid L K a s g lo hi code → Computes L K env a s g lo hi code)
    (σ : Nat → Value) (hslot : slot < lo) (hk : hi ≤ k) (hle : lo ≤ hi)
    (hg : g.1 = 0 ∨ g.1 < lo ∧ g.1 ≠ slot)
    (hskip : a.isCall = true → skips K env σ g.1 g.2 = false) :
    ∃ σ', exec K env code.reverse σ =
        (σ', (converted d i (a.eval L env)).trace, (converted d i (a.eval L env)).fault) ∧
      (∀ v, (converted d i (a.eval L env)).result = .ok v →
        ArgReady K env σ' (d.converter i) a slot k v) ∧
      ∀ j, j ≠ slot → (usesSlot (d.converter i) a = true → j ≠ k) → (j < lo ∨ hi ≤ j) →
        σ' j = σ j := by
  -- a moved argument: its own value goes to the slot of the converter
  have hmoved : ∀ c, d.converter i = some c → a.isConst = false →
      Laid L K a k g lo hi code → ∃ σ', exec K env code.reverse σ =
        (σ', (converted d i (a.eval L env)).trace, (converted d i (a.eval L env)).fault) ∧
      (∀ v, (converted d i (a.eval L env)).result = .ok v → c (read K env σ' k) = v) ∧
      ∀ j, j ≠ slot → (usesSlot (d.converter i) a = true → j ≠ k) → (j < lo ∨ hi ≤ j) →
        σ' j = σ j := by
    intro c hc hconst hlaid
    obtain ⟨σ', hexec, hval, hframe⟩ := ih k hlaid σ (by omega) (.inr hk) (by omega) hskip
    have huses : usesSlot (d.converter i) a = true := by simp [usesSlot, hc, hconst]
    refine ⟨σ', ?_, ?_, fun j _ hjk hj => hframe j (hjk huses) hj⟩
    · rw [hexec, converted, hc]
      rw [Run.trace_map, Run.fault_map]
    · intro v hv
      rw [converted, hc] at hv
      obtain ⟨x, hx, rfl⟩ := Run.map_eq_ok.mp hv
      rw [hval x hx]
  cases hconv : d.converter i with
  | none =>
    rw [hconv] at harg
    obtain ⟨σ', hexec, hval, hframe⟩ := ih slot harg.1 σ (by omega) (.inl hslot) hg hskip
    have hcon : converted d i (a.eval L env) = a.eval L env := by rw [converted, hconv]
    rw [hcon]
    exact ⟨σ', hexec, hval, fun j hj _ hout => hframe j hj hout⟩
  | some c =>
    rw [hconv] at harg hmoved
    cases a with
    | ref b => exact hmoved c rfl rfl harg.1
    | call name args => exact hmoved c rfl rfl harg.1
    | const ty v =>
      obtain ⟨hK, -, rfl, -⟩ := harg
      have hcon : converted d i ((Tree.const ty v).eval L env) = .pure (c v) := by
        rw [converted, hconv]
        rfl
      rw [hcon]
      refine ⟨σ, rfl, fun x hx => ?_, fun j _ _ _ => rfl⟩
      change read K env σ slot = x
      rw [read, hK]
      exact Except.ok.inj hx

theorem arg_idle
    (harg : ArgLaid K (d.converter i) a (fun s => Laid L K a s g lo hi code) slot k g lo hi
      code convCode)
    (ih : ∀ s, Laid L K a s g lo hi code → Idles K env a s g lo hi code)
    (σ : Nat → Value) (hslot : slot < lo) (hk : hi ≤ k) (hle : lo ≤ hi)
    (hg : g.1 = 0 ∨ g.1 < lo ∧ g.1 ≠ slot)
    (hskip : a.isCall = true → skips K env σ g.1 g.2 = true) :
    ∃ σ', exec K env code.reverse σ = (σ', [], none) ∧ ∀ j, (j < lo ∨ hi ≤ j) → σ' j = σ j := by
  rcases harg.cases with h | ⟨-, h⟩ | ⟨-, rfl⟩
  · exact ih slot h σ (by omega) (.inl hslot) hg hskip
  · exact ih k h σ (by omega) (.inr hk) (by omega) hskip
  · exact ⟨σ, rfl, fun j _ => rfl⟩

variable (env) in
/-- The converter of an argument, whether or not it is skipped. -/
theorem conv_exec
    (harg : ArgLaid K (d.converter i) a (fun s => Laid L K a s g lo hi code) slot k g lo hi
      code convCode) (σ : Nat → Value) :
    ∃ σ', exec K env convCode.reverse σ = (σ', [], none) ∧ (∀ j, j ≠ slot → σ' j = σ j) ∧
      ∀ v, ArgReady K env σ (d.converter i) a slot k v →
        (a.isCall = true → skips K env σ g.1 g.2 = false) → read K env σ' slot = v := by
  cases hconv : d.converter i with
  | none =>
    rw [hconv] at harg
    obtain ⟨-, rfl⟩ := harg
    exact ⟨σ, rfl, fun _ _ => rfl, fun v hv _ => hv⟩
  | some c =>
    rw [hconv] at harg
    cases a with
    | const ty v =>
      obtain ⟨-, -, -, rfl⟩ := harg
      exact ⟨σ, rfl, fun _ _ => rfl, fun v hv _ => hv⟩
    | ref b =>
      obtain ⟨-, hK, rfl⟩ := harg
      refine ⟨_, exec_converterAt c k slot (0, false) σ rfl, ?_, ?_⟩
      · intro j hj
        exact Function.update_of_ne hj _ _
      · intro v hv _
        rw [read_update_self hK]
        exact hv
    | call name args =>
      obtain ⟨-, hK, rfl⟩ := harg
      cases hs : skips K env σ g.1 g.2 with
      | true =>
        refine ⟨σ, ?_, fun _ _ => rfl, ?_⟩
        · change exec K env [converterAt c k slot g.1 g.2] σ = _
          have hs' : skips K env σ (converterAt c k slot g.1 g.2 : CompiledFunction ε).skipIndex
              (converterAt c k slot g.1 g.2 : CompiledFunction ε).skipValue = true := hs
          simp [exec, hs']
        · intro v _ hopen
          cases hopen rfl
      | false =>
        refine ⟨_, exec_converterAt c k slot g σ hs, ?_, ?_⟩
        · intro j hj
          exact Function.update_of_ne hj _ _
        · intro v hv _
          rw [read_update_self hK]
          exact hv

end Arg

end SciDB.Query.Expression
