import SciDB.Query.ExpressionLayout

/-!
# What laid out code computes

The arguments of a call are run from the first to the last, then their converters, then the
function itself.  The connectives and `iif` leave arguments out.  This file proves by
induction over trees what a segment does when it is run, either as a selected operand or as
one that its skip index excludes.

Main results:

- Theorem {lit}`args_done`: the arguments of a call, in their order.
- Theorem {lit}`guarded_args_done`: those of a call whose first argument decides on the rest.
- Theorem {lit}`behaves`: a selected segment runs the functions of its tree and leaves its
  value, if the tree is safe for the current bindings; an excluded one runs nothing, if the
  tree is quiet.
-/

namespace SciDB.Query.Expression

open Kleene List Run
open Run (fault_error bind_error fault_ok bind_ok trace_map fault_map)

variable {Ty ε : Type} {L : Library Ty ε} {K : Nat → Kind Ty} {env : Bind Ty → Value}

/-! ## The arguments of a call -/

/-- The arguments that are selected, from left to right. -/
def selected (d : Description Ty ε) :
    Nat → List Bool → List (Run ε Value) → Run ε (List (Option Value))
  | i, true :: ms, r :: rs =>
    (converted d i r).bind fun v => (selected d (i + 1) ms rs).map (some v :: ·)
  | i, false :: ms, _ :: rs => (selected d (i + 1) ms rs).map (none :: ·)
  | _, _, _ => .pure []

/-- The skip indices agree with the selection, selected arguments are safe and the others
quiet. -/
def ArgsOk (L : Library Ty ε) (K : Nat → Kind Ty) (env : Bind Ty → Value) (name : Name)
    (argIndex : Nat) (g : Nat × Bool) (σ : Nat → Value) :
    List (Tree Ty) → List Bool → Nat → Prop
  | a :: as, m :: ms, i =>
    (a.isCall = true → skips K env σ (guard name argIndex i g.1 g.2).1
      (guard name argIndex i g.1 g.2).2 = !m) ∧
    (if m then a.Safe L env else a.Quiet) ∧
    ((m = true → ∃ v, (a.eval L env).result = .ok v) →
      ArgsOk L K env name argIndex g σ as ms (i + 1))
  | [], [], _ => True
  | _, _, _ => False

/-- The selected values are in their slots, or will be after the converters have run. -/
def ArgsReady (K : Nat → Kind Ty) (env : Bind Ty → Value) (name : Name) (d : Description Ty ε)
    (argIndex : Nat) (g : Nat × Bool) (σ : Nat → Value) :
    List (Tree Ty) → Nat → Nat → List (Option Value) → Prop
  | a :: as, i, k, v :: vs =>
    (∀ x, v = some x → ArgReady K env σ (d.converter i) a (argIndex + i) k x ∧
      (a.isCall = true → skips K env σ (guard name argIndex i g.1 g.2).1
        (guard name argIndex i g.1 g.2).2 = false)) ∧
      ArgsReady K env name d argIndex g σ as (i + 1) (nextSlot (d.converter i) a k) vs
  | [], _, _, [] => True
  | _, _, _, _ => False

theorem guard_cases (name : Name) (argIndex i : Nat) (g : Nat × Bool) :
    guard name argIndex i g.1 g.2 = g ∨ (guard name argIndex i g.1 g.2).1 = argIndex ∧ 1 ≤ i := by
  unfold guard
  split
  · exact .inr ⟨rfl, by omega⟩
  · exact .inr ⟨rfl, by omega⟩
  · exact .inr ⟨rfl, by omega⟩
  · exact .inr ⟨rfl, by omega⟩
  · exact .inl rfl

variable {argIndex i lo n k slot lo i : Nat} {g : Nat × Bool} {name name : Name} {as : List (Tree Ty)}
  {σ σ' : Nat → Value} {d : Description Ty ε} {m : Run ε Value} {r : Run ε (List (Option Value))}
  {x v : Value} {vs : List (Option Value)} {code : List (CompiledFunction ε)} {ms : List Bool} {stop : Bool} {t : Tree Ty}

theorem guard_of_not_guarded (h : guarded name i = false) : guard name argIndex i g.1 g.2 = g := by
  unfold guarded at h
  unfold guard
  split <;> simp_all

/-- The skip index of an argument is none of the slots that the arguments use. -/
theorem guard_outside (name : Name) (i : Nat) (hg : g.1 = 0 ∨ g.1 < argIndex)
    (hlo : argIndex < lo) :
    (guard name argIndex i g.1 g.2).1 = 0 ∨
      (guard name argIndex i g.1 g.2).1 < lo ∧
        (guard name argIndex i g.1 g.2).1 ≠ argIndex + i := by
  rcases guard_cases name argIndex i g with h | ⟨h, hi⟩
  · rw [h]
    omega
  · omega

theorem guard_le (name : Name) (i : Nat) (hg : g.1 = 0 ∨ g.1 < argIndex) :
    (guard name argIndex i g.1 g.2).1 ≤ argIndex := by
  rcases guard_cases name argIndex i g with h | ⟨h, -⟩
  · rw [h]
    omega
  · omega

theorem ArgsOk.congr (h : ArgsOk L K env name argIndex g σ as ms i)
    (hsame : ∀ j, i ≤ j → (guard name argIndex j g.1 g.2).1 = 0 ∨
      σ' (guard name argIndex j g.1 g.2).1 = σ (guard name argIndex j g.1 g.2).1) :
    ArgsOk L K env name argIndex g σ' as ms i := by
  induction as generalizing ms i with
  | nil => cases ms <;> exact h
  | cons a as ih =>
    cases ms with
    | nil => exact h
    | cons m ms =>
      refine ⟨fun hcall => ?_, h.2.1, fun hok => ?_⟩
      · rw [skips_congr _ (hsame i (Nat.le_refl i))]
        exact h.1 hcall
      · exact ih (h.2.2 hok) fun j hj => hsame j (by omega)

/-- Slots behind the arguments so far may change, and skip indices that no call looks at. -/
theorem ArgsReady.congr (h : ArgsReady K env name d argIndex g σ as i k vs)
    (hslot : ∀ j, argIndex + i ≤ j → σ' j = σ j) (hk : argIndex + i + as.length ≤ k)
    (hsame : ∀ a ∈ as, a.isCall = true → ∀ j, i ≤ j → (guard name argIndex j g.1 g.2).1 = 0 ∨
      σ' (guard name argIndex j g.1 g.2).1 = σ (guard name argIndex j g.1 g.2).1) :
    ArgsReady K env name d argIndex g σ' as i k vs := by
  induction as generalizing i k vs with
  | nil => cases vs <;> exact h
  | cons a as ih =>
    cases vs with
    | nil => exact h
    | cons v vs =>
      have hnext := le_nextSlot (d.converter i) a k
      simp only [length_cons] at hk
      refine ⟨fun x hx => ?_, ?_⟩
      · obtain ⟨hready, hopen⟩ := h.1 x hx
        refine ⟨hready.congr (hslot _ (Nat.le_refl _)) fun _ => hslot k (by omega), fun hcall => ?_⟩
        rw [skips_congr _ (hsame a mem_cons_self hcall i (Nat.le_refl i))]
        exact hopen hcall
      · exact ih h.2 (fun j hj => hslot j (by omega)) (by omega)
          fun b hb hcall j hj => hsame b (mem_cons_of_mem _ hb) hcall j (by omega)

/-- A skip index below the slots that change. -/
theorem skips_frame (hg : g.1 = 0 ∨ g.1 < lo) (hframe : ∀ j, j < lo → σ' j = σ j) :
    skips K env σ' g.1 g.2 = skips K env σ g.1 g.2 :=
  skips_congr g.2 (hg.imp_right fun h => hframe _ h)

/-- What is to be shown of a tree: its segments compute, or idle. -/
structure Behaves (L : Library Ty ε) (K : Nat → Kind Ty) (env : Bind Ty → Value)
    (t : Tree Ty) : Prop where
  computes : ∀ {slot g lo hi code}, Laid L K t slot g lo hi code → t.Safe L env →
    Computes L K env t slot g lo hi code
  idles : ∀ {slot g lo hi code}, Laid L K t slot g lo hi code → t.Quiet →
    Idles K env t slot g lo hi code

theorem converted_ok {r : Run ε Value} (h : (converted d i r).result = .ok v) :
    ∃ x, r.result = .ok x := by
  unfold converted at h
  split at h
  · exact ⟨v, h⟩
  · obtain ⟨x, hx, -⟩ := map_eq_ok.mp h
    exact ⟨x, hx⟩

section Args

variable {name : Name} {d : Description Ty ε} {argIndex : Nat} {g : Nat × Bool}

variable {σ : Nat → Value} {as : List (Tree Ty)} {convCode : List (CompiledFunction ε)} {hi k : Nat}
  {a : Tree Ty} {conv : Option (Value → Value)}

/-- The skip indices of later arguments are not among the slots of the `i`-th. -/
theorem guard_same (name : Name) {σ' : Nat → Value} (hg : g.1 = 0 ∨ g.1 < argIndex)
    (hi : 1 ≤ i ∨ ∀ j, guard name argIndex j g.1 g.2 = g) (hlo : argIndex + i < lo)
    (hframe : ∀ j, j < lo → j ≠ argIndex + i → σ' j = σ j) :
    ∀ j, (guard name argIndex j g.1 g.2).1 = 0 ∨
      σ' (guard name argIndex j g.1 g.2).1 = σ (guard name argIndex j g.1 g.2).1 := by
  intro j
  rcases hi with hi | hsame
  · rcases guard_cases name argIndex j g with h | ⟨h, -⟩
    · rw [h]
      exact .inr (hframe _ (by omega) (by omega))
    · exact .inr (hframe _ (by omega) (by omega))
  · rw [hsame]
    rcases hg with hg | hg
    · exact .inl hg
    · exact .inr (hframe _ (by omega) (by omega))

/-- The arguments of a call from the `i`-th on have been run. -/
def ArgsRun (K : Nat → Kind Ty) (env : Bind Ty → Value) (name : Name) (d : Description Ty ε)
    (argIndex : Nat) (g : Nat × Bool) (as : List (Tree Ty)) (i lo hi klo khi : Nat)
    (code : List (CompiledFunction ε)) (σ : Nat → Value) (r : Run ε (List (Option Value))) :
    Prop :=
  ∃ σ', exec K env code.reverse σ = (σ', r.trace, r.fault) ∧
    (∀ vs, r.result = .ok vs → ArgsReady K env name d argIndex g σ' as i klo vs) ∧
    ∀ j, (j < argIndex + i ∨ argIndex + i + as.length ≤ j) → (j < lo ∨ hi ≤ j) →
      (j < klo ∨ khi ≤ j) → σ' j = σ j

/-- A selected argument is run and then those behind it, which may depend on its value. -/
theorem cons_exec {m klo khi : Nat} {codeA codeR convA convR : List (CompiledFunction ε)}
    {rest : Value → Run ε (List (Option Value))} (hbehaves : Behaves L K env a)
    (hg : g.1 = 0 ∨ g.1 < argIndex)
    (hrest : LaidArgs L K name d argIndex g as (i + 1) lo m (nextSlot (d.converter i) a klo) khi
      codeR convR)
    (harg : ArgLaid K (d.converter i) a
      (fun s => Laid L K a s (guard name argIndex i g.1 g.2) m hi codeA)
      (argIndex + i) klo (guard name argIndex i g.1 g.2) m hi codeA convA)
    (hlo : argIndex + i + (a :: as).length ≤ lo) (hklo : hi ≤ klo) (hsafe : a.Safe L env)
    (hskip : a.isCall = true → skips K env σ (guard name argIndex i g.1 g.2).1
      (guard name argIndex i g.1 g.2).2 = false)
    (hrun : ∀ x, (converted d i (a.eval L env)).result = .ok x → ∀ σ₁,
      ArgReady K env σ₁ (d.converter i) a (argIndex + i) klo x →
      (∀ j, j < lo → j ≠ argIndex + i → σ₁ j = σ j) →
      ArgsRun K env name d argIndex g as (i + 1) lo m (nextSlot (d.converter i) a klo) khi codeR
        σ₁ (rest x)) :
    ArgsRun K env name d argIndex g (a :: as) i lo hi klo khi (codeR ++ codeA) σ
      ((converted d i (a.eval L env)).bind fun x => (rest x).map (some x :: ·)) := by
  have hle := LaidArgs.le hrest
  have hle' := harg.le
  have hkle := le_nextSlot (d.converter i) a klo
  have hlen : (a :: as).length = as.length + 1 := rfl
  have hout := guard_outside name i hg (show argIndex < m by omega)
  have hgle := guard_le name i hg
  obtain ⟨σ₁, hexec, hready, hframe⟩ := arg_exec harg (fun s hs => hbehaves.computes hs hsafe) σ
    (by omega) (by omega) hle' hout hskip
  have hout₁ : ∀ j, (j < argIndex + i ∨ argIndex + i + (a :: as).length ≤ j) →
      (j < lo ∨ hi ≤ j) → (j < klo ∨ khi ≤ j) → σ₁ j = σ j := by
    intro j h1 h2 h3
    refine hframe j (by omega) (fun huses => ?_) (by omega)
    have := nextSlot_of_uses huses klo
    omega
  rw [ArgsRun, reverse_append]
  cases hr : (converted d i (a.eval L env)).result with
  | error e =>
    rw [fault_error hr] at hexec
    rw [bind_error hr]
    exact ⟨σ₁, exec_append_error hexec, fun vs hvs => (nomatch hvs), hout₁⟩
  | ok v =>
    rw [fault_ok hr] at hexec
    obtain ⟨σ₂, hexec₂, hready₂, hframe₂⟩ := hrun v hr σ₁ (hready v hr)
      fun j hj hne => hframe j hne (fun _ => by omega) (by omega)
    rw [bind_ok hr, exec_append_ok hexec, hexec₂]
    refine ⟨σ₂, ?_, fun vs hvs => ?_, fun j h1 h2 h3 => ?_⟩
    · rw [trace_map, ← fault_map]
      rfl
    · obtain ⟨ws, hws, rfl⟩ := map_eq_ok.mp hvs
      refine ⟨fun x hx => ?_, hready₂ ws hws⟩
      obtain rfl : v = x := Option.some.inj hx
      refine ⟨(hready v hr).congr (hframe₂ _ (by omega) (by omega) (by omega)) ?_, ?_⟩
      · intro huses
        have := nextSlot_of_uses huses klo
        exact hframe₂ _ (by omega) (by omega) (by omega)
      · intro hcall
        rw [skips_congr _ (.inr (hframe₂ _ (by omega) (by omega) (by omega))), skips_congr _
          (hout.imp_right fun h => hframe _ h.2 (fun _ => by omega) (by omega))]
        exact hskip hcall
    · rw [hframe₂ j (by omega) (by omega) (by omega), hout₁ j h1 h2 h3]

theorem args_exec (hall : ∀ a ∈ as, Behaves L K env a) (hg : g.1 = 0 ∨ g.1 < argIndex) :
    ∀ {i lo hi klo khi code convCode} {ms : List Bool} {σ : Nat → Value},
      LaidArgs L K name d argIndex g as i lo hi klo khi code convCode →
      (1 ≤ i ∨ ∀ j, guard name argIndex j g.1 g.2 = g) ∨ (∀ m ∈ ms, m = false) →
      argIndex + i + as.length ≤ lo → hi ≤ klo →
      ArgsOk L K env name argIndex g σ as ms i →
      ArgsRun K env name d argIndex g as i lo hi klo khi code σ
        (selected d i ms (evalArgs L env as)) := by
  induction as with
  | nil =>
    intro i lo hi klo khi code convCode ms σ hlaid _ _ _ hok
    obtain ⟨-, -, rfl, -⟩ := hlaid
    cases ms with
    | cons m ms => exact hok.elim
    | nil =>
      refine ⟨σ, rfl, fun vs hvs => ?_, fun _ _ _ _ => rfl⟩
      obtain rfl : [] = vs := Except.ok.inj hvs
      trivial
  | cons a as ih =>
    intro i lo hi klo khi code convCode ms σ hlaid hi1 hlo hklo hok
    obtain ⟨m, codeA, codeR, convA, convR, hrest, harg, rfl, rfl⟩ := hlaid
    cases ms with
    | nil => exact hok.elim
    | cons sel ms =>
      obtain ⟨hskip, hcond, hnext⟩ := hok
      have hbehaves := hall a mem_cons_self
      have hle := LaidArgs.le hrest
      have hle' := harg.le
      have hkle := le_nextSlot (d.converter i) a klo
      have hlen : (a :: as).length = as.length + 1 := rfl
      have ihr := @ih (fun b hb => hall b (mem_cons_of_mem _ hb)) (i + 1) lo m
        (nextSlot (d.converter i) a klo) khi codeR convR ms
      rw [evalArgs, selected.eq_def]
      cases sel with
      | true =>
        refine cons_exec hbehaves hg hrest harg hlo hklo hcond
          (fun hcall => by simpa using hskip hcall) fun x hx σ₁ _ hframe => ?_
        have hsame := guard_same name hg (hi1.resolve_right fun h => nomatch h true mem_cons_self)
          (by omega) hframe
        exact ihr hrest (by omega) (by omega) (by omega)
          ((hnext fun _ => converted_ok hx).congr fun j _ => hsame j)
      | false =>
        obtain ⟨σ₁, hexec, hframe⟩ := arg_idle harg
          (fun s hs => hbehaves.idles hs hcond) σ (by omega) (by omega) hle'
          (guard_outside name i hg (by omega)) (fun hcall => by simpa using hskip hcall)
        have hok := (hnext fun h => nomatch h).congr fun j _ =>
          .inr (hframe _ (by have := guard_le name j hg; omega))
        obtain ⟨σ₂, hexec₂, hready₂, hframe₂⟩ := ihr hrest (by omega) (by omega) (by omega) hok
        rw [ArgsRun, reverse_append, exec_append_ok hexec, hexec₂]
        refine ⟨σ₂, ?_, fun vs hvs => ?_, fun j h1 h2 h3 => ?_⟩
        · rw [trace_map, fault_map]
          rfl
        · obtain ⟨ws, hws, rfl⟩ := map_eq_ok.mp hvs
          exact ⟨fun x hx => (nomatch hx), hready₂ ws hws⟩
        · rw [hframe₂ j (by omega) (by omega) (by omega), hframe j (by omega)]

theorem convCode_eq_nil {P : Nat → Prop}
    (h : ArgLaid K conv a P slot k g lo hi code convCode) (huses : usesSlot conv a = false) :
    convCode = [] := by
  unfold ArgLaid at h
  split at h
  · exact h.2
  · exact h.2.2.2
  · cases huses
  · cases huses

/-- Converters raise no errors, change nothing but their slots and leave the values that are
ready.  That of the first argument is only run before code that does not look at its slot. -/
theorem convs_exec :
    ∀ {i lo hi klo khi code convCode} (σ : Nat → Value),
      LaidArgs L K name d argIndex g as i lo hi klo khi code convCode →
      ∃ σ', exec K env convCode.reverse σ = (σ', [], none) ∧
        (∀ j, (j < argIndex + i ∨ argIndex + i + as.length ≤ j) → σ' j = σ j) ∧
        ∀ vs, (g.1 = 0 ∨ g.1 < argIndex) →
          (1 ≤ i ∨ ∀ a bs, as = a :: bs → usesSlot (d.converter i) a = true →
            ∀ b ∈ bs, b.isCall = true → ∀ j, guard name argIndex j g.1 g.2 = g) →
          argIndex + i + as.length ≤ klo → ArgsReady K env name d argIndex g σ as i klo vs →
          ∀ n x, vs[n]? = some (some x) → read K env σ' (argIndex + i + n) = x := by
  induction as with
  | nil =>
    intro i lo hi klo khi code convCode σ hlaid
    obtain ⟨-, -, -, rfl⟩ := hlaid
    refine ⟨σ, rfl, fun _ _ => rfl, fun vs _ _ _ hready n x hx => ?_⟩
    cases vs with
    | cons v vs => exact hready.elim
    | nil => cases hx
  | cons a as ih =>
    intro i lo hi klo khi code convCode σ hlaid
    obtain ⟨m, codeA, codeR, convA, convR, hrest, harg, rfl, rfl⟩ := hlaid
    have hlen : (a :: as).length = as.length + 1 := rfl
    have hkle := le_nextSlot (d.converter i) a klo
    obtain ⟨σ₁, hexec, hframe, hvalue⟩ := conv_exec env harg σ
    obtain ⟨σ₂, hexec₂, hframe₂, hvalue₂⟩ := ih σ₁ hrest
    rw [reverse_append, exec_append_ok hexec, hexec₂]
    refine ⟨σ₂, rfl, fun j hj => ?_, fun vs hg hlate hklo hready n x hx => ?_⟩
    · rw [hframe₂ j (by omega), hframe j (by omega)]
    · cases vs with
      | nil => exact hready.elim
      | cons v vs =>
        cases n with
        | zero =>
          obtain rfl : v = some x := by simpa using hx
          obtain ⟨hval, hopen⟩ := hready.1 x rfl
          rw [read_congr (hframe₂ _ (by omega))]
          exact hvalue x hval hopen
        | succ n =>
          have hready₁ : ArgsReady K env name d argIndex g σ₁ as (i + 1)
              (nextSlot (d.converter i) a klo) vs := by
            refine hready.2.congr (fun j hj => hframe j (by omega)) (by omega)
              fun b hb hcall j _ => ?_
            rcases hlate with hi1 | hlate
            · exact guard_same name hg (.inl hi1) (Nat.lt_succ_self (argIndex + i))
                (fun j _ hne => hframe j hne) j
            · cases huses : usesSlot (d.converter i) a with
              | true =>
                rw [hlate a as rfl huses b hb hcall]
                exact hg.imp_right fun h => hframe _ (by omega)
              | false =>
                rw [convCode_eq_nil harg huses] at hexec
                exact .inr (congrFun (congrArg Prod.fst hexec).symm _)
          have h := hvalue₂ vs hg (by omega) (by omega) hready₁ n x (by simpa using hx)
          rwa [show argIndex + (i + 1) + n = argIndex + i + (n + 1) by omega] at h

/-- The arguments of a call have been run and converted. -/
def ArgsDone (K : Nat → Kind Ty) (env : Bind Ty → Value) (argIndex lo hi : Nat)
    (code : List (CompiledFunction ε)) (σ : Nat → Value) (r : Run ε (List (Option Value))) :
    Prop :=
  ∃ σ', exec K env code.reverse σ = (σ', r.trace, r.fault) ∧
    (∀ vs, r.result = .ok vs → ∀ n x, vs[n]? = some (some x) → read K env σ' (argIndex + n) = x) ∧
    ∀ j, (j < lo ∨ hi ≤ j) → σ' j = σ j

variable {mid : Nat} {argCode : List (CompiledFunction ε)}

theorem ArgsRun.done {r : Run ε (List (Option Value))} (hg : g.1 = 0 ∨ g.1 < argIndex)
    (hlaid : LaidArgs L K name d argIndex g as 0 (argIndex + as.length) mid mid hi argCode convCode)
    (hlate : ∀ a bs, as = a :: bs → usesSlot (d.converter 0) a = true →
      ∀ b ∈ bs, b.isCall = true → ∀ j, guard name argIndex j g.1 g.2 = g)
    (h : ArgsRun K env name d argIndex g as 0 (argIndex + as.length) mid mid hi argCode σ r) :
    ArgsDone K env argIndex argIndex hi (convCode ++ argCode) σ r := by
  have hle := LaidArgs.le hlaid
  obtain ⟨σ₁, hexec, hready, hframe⟩ := h
  rw [ArgsDone, reverse_append]
  cases hr : r.result with
  | error e =>
    rw [fault_error hr] at hexec ⊢
    refine ⟨σ₁, exec_append_error hexec, fun vs hvs => ?_, fun j hj => ?_⟩
    · cases hvs
    · exact hframe j (by omega) (by omega) (by omega)
  | ok vs =>
    rw [fault_ok hr] at hexec ⊢
    obtain ⟨σ₂, hexec₂, hframe₂, hvalue⟩ := convs_exec σ₁ hlaid
    rw [exec_append_ok hexec, hexec₂, append_nil]
    refine ⟨σ₂, rfl, fun ws hws n x hx => ?_, fun j hj => ?_⟩
    · obtain rfl : vs = ws := Except.ok.inj hws
      exact hvalue vs hg (.inr hlate) (by omega) (hready vs hr) n x hx
    · rw [hframe₂ j (by omega), hframe j (by omega) (by omega) (by omega)]

/-- Without skip indices of their own, all arguments are run. -/
theorem args_done (hall : ∀ a ∈ as, Behaves L K env a)
    (hg : g.1 = 0 ∨ g.1 < argIndex)
    (hlaid : LaidArgs L K name d argIndex g as 0 (argIndex + as.length) mid mid hi argCode convCode)
    (hsame : ∀ j, guard name argIndex j g.1 g.2 = g)
    (hok : ArgsOk L K env name argIndex g σ as ms 0) :
    ArgsDone K env argIndex argIndex hi (convCode ++ argCode) σ
      (selected d 0 ms (evalArgs L env as)) :=
  (args_exec hall hg hlaid (.inl (.inr hsame)) (Nat.le_refl _) (Nat.le_refl mid) hok).done hg hlaid
    fun _ _ _ _ _ _ _ => hsame

theorem ArgReady.read_eq (h : ArgReady K env σ conv a slot k v)
    (huses : usesSlot conv a = false) :
    read K env σ slot = v := by
  unfold ArgReady at h
  split at h
  · exact h
  · exact h
  · cases huses
  · cases huses

/-- With skip indices, the first argument decides which of the others are run. -/
theorem guarded_args_done {ms : Value → List Bool}
    (hall : ∀ b ∈ a :: as, Behaves L K env b) (hg : g.1 = 0 ∨ g.1 < argIndex)
    (hlaid : LaidArgs L K name d argIndex g (a :: as) 0 (argIndex + (a :: as).length) mid mid hi
      argCode convCode)
    (hsafe : a.Safe L env) (hopen : skips K env σ g.1 g.2 = false)
    (hlate : usesSlot (d.converter 0) a = true → ∀ b ∈ as, b.isCall = false)
    (hok : ∀ x, (converted d 0 (a.eval L env)).result = .ok x → ∀ σ₁,
      ArgReady K env σ₁ (d.converter 0) a argIndex mid x → (g.1 = 0 ∨ σ₁ g.1 = σ g.1) →
      ArgsOk L K env name argIndex g σ₁ as (ms x) 1) :
    ArgsDone K env argIndex argIndex hi (convCode ++ argCode) σ
      ((converted d 0 (a.eval L env)).bind fun x =>
        (selected d 1 (ms x) (evalArgs L env as)).map (some x :: ·)) := by
  apply ArgsRun.done hg hlaid
  · rintro _ _ ⟨rfl, rfl⟩ huses b hb hcall
    rw [hlate huses b hb] at hcall
    cases hcall
  obtain ⟨m, codeA, codeR, convA, convR, hrest, harg, rfl, rfl⟩ := hlaid
  have hle' := harg.le
  have hkle := le_nextSlot (d.converter 0) a mid
  have hlen : (a :: as).length = as.length + 1 := rfl
  have hguard : guard name argIndex 0 g.1 g.2 = g := by
    rcases guard_cases name argIndex 0 g with h | h
    · exact h
    · omega
  refine cons_exec (hall a mem_cons_self) hg hrest harg (by omega) (Nat.le_refl mid) hsafe
    (fun _ => by rw [hguard, hopen]) fun x hx σ₁ hready hframe => ?_
  exact args_exec (fun b hb => hall b (mem_cons_of_mem _ hb)) hg hrest (.inl (.inl (Nat.le_refl 1)))
    (by omega) (by omega)
    (hok x hx σ₁ hready (hg.imp_right fun h => hframe _ (by omega) (by omega)))

end Args

/-! ## A call -/

/-- How the outcome of a call depends on the values of its selected arguments. -/
def Finishes (name : Name) (d : Description Ty ε) (n : Nat) (r : Run ε (List (Option Value)))
    (m : Run ε Value) : Prop :=
  (∀ e, r.result = .error e → m = ⟨r.trace, .error e⟩) ∧
    ∀ vs, r.result = .ok vs → ∀ w : List Value, w.length = n →
      (∀ i x, i < n → vs[i]? = some (some x) → w[i]? = some x) →
      m = ⟨r.trace ++ [name], d.function w⟩

/-- The call itself, after its arguments.  `m` is the outcome of the whole. -/
theorem call_exec {hi : Nat}
    (hdone : ArgsDone K env lo lo hi code σ r) (hK : K slot = .temp) (hg : g.1 = 0 ∨ g.1 < lo)
    (hopen : skips K env σ g.1 g.2 = false) (hfin : Finishes name d n r m) :
    ∃ σ', exec K env (callAt name d.function lo n slot g.1 g.2 :: code).reverse σ =
        (σ', m.trace, m.fault) ∧
      (∀ v, m.result = .ok v → read K env σ' slot = v) ∧
      ∀ j, j ≠ slot → (j < lo ∨ hi ≤ j) → σ' j = σ j := by
  obtain ⟨σ₁, hexec, hread, hframe⟩ := hdone
  rw [reverse_cons]
  cases hr : r.result with
  | error e =>
    rw [fault_error hr] at hexec
    rw [exec_append_error hexec, hfin.1 e hr]
    exact ⟨σ₁, rfl, fun v hv => (nomatch hv), fun j _ hj => hframe j hj⟩
  | ok vs =>
    rw [fault_ok hr] at hexec
    rw [exec_append_ok hexec]
    have hopen₁ := (skips_frame hg fun j hj => hframe j (.inl hj)).trans hopen
    have hm := hfin.2 vs hr
      (argsOf K env σ₁ (callAt name d.function lo n slot g.1 g.2)) (by simp [argsOf, callAt]) (by
        intro i x hi hx
        simp only [argsOf, callAt, getElem?_map, getElem?_range hi, Option.map_some]
        rw [hread vs hr i x hx])
    rw [exec_singleton _ _ hopen₁, hm]
    cases hf : d.function (argsOf K env σ₁ (callAt name d.function lo n slot g.1 g.2)) with
    | error e =>
      simp only [callAt] at hf ⊢
      rw [hf]
      exact ⟨σ₁, rfl, fun v hv => (nomatch hv), fun j _ hj => hframe j hj⟩
    | ok v =>
      simp only [callAt] at hf ⊢
      rw [hf]
      refine ⟨Function.update σ₁ slot v, rfl, fun x hx => ?_, fun j hne hj => ?_⟩
      · rw [read_update_self hK]
        exact Except.ok.inj hx
      · rw [Function.update_of_ne hne, hframe j hj]

/-! ## The functions that are treated apart -/

theorem logicalAnd_eq (x y : Value) :
    (logicalAnd [x, y] : Except ε Value) = .ok (.ofTruth (both x.truth y.truth)) := by
  simp only [logicalAnd, Value.truth]
  cases x.isNull <;> cases y.isNull <;> cases x.getBool <;> cases y.getBool <;> rfl

theorem logicalOr_eq (x y : Value) :
    (logicalOr [x, y] : Except ε Value) = .ok (.ofTruth (either x.truth y.truth)) := by
  simp only [logicalOr, Value.truth]
  cases x.isNull <;> cases y.isNull <;> cases x.getBool <;> cases y.getBool <;> rfl

theorem holds_iff (x : Value) : x.holds = true ↔ x.truth = some true := by
  simp only [Value.holds, Value.truth]
  cases x.isNull <;> simp

theorem iif_eq (x y z : Value) :
    (iif [x, y, z] : Except ε Value) = .ok (if x.truth = some true then y else z) := by
  cases hn : x.isNull <;> cases hb : x.getBool <;> simp [iif, Value.truth, hn, hb]

theorem finishes_of_ok (hr : r.result = .ok vs) (hm : ∀ w : List Value, w.length = n →
      (∀ i x, i < n → vs[i]? = some (some x) → w[i]? = some x) →
      m = ⟨r.trace ++ [name], d.function w⟩) : Finishes name d n r m := by
  refine ⟨fun e he => ?_, fun us hus => ?_⟩
  · rw [hr] at he
    cases he
  · obtain rfl : vs = us := Except.ok.inj (hr.symm.trans hus)
    exact hm

theorem selected_all (d : Description Ty ε) (i : Nat) (rs : List (Run ε Value)) :
    selected d i (List.replicate rs.length true) rs = (sequence d i rs).map (List.map some) := by
  induction rs generalizing i with
  | nil => rfl
  | cons r rs ih =>
    rw [length_cons, replicate_succ, selected, sequence]
    cases hr : (converted d i r).result with
    | error e => rw [bind_error hr, bind_error hr]; rfl
    | ok v =>
      rw [bind_ok hr, bind_ok hr, ih]
      cases hs : (sequence d (i + 1) rs).result <;> simp [Run.map, Run.bind, Run.pure, hs]

theorem sequence_length {rs : List (Run ε Value)} {vs : List Value}
    (h : (sequence d i rs).result = .ok vs) : vs.length = rs.length := by
  induction rs generalizing i vs with
  | nil =>
    obtain rfl : [] = vs := Except.ok.inj h
    rfl
  | cons r rs ih =>
    rw [sequence] at h
    cases hr : (converted d i r).result with
    | error e =>
      rw [bind_error hr] at h
      cases h
    | ok v =>
      rw [bind_ok hr] at h
      obtain ⟨ws, hws, rfl⟩ := map_eq_ok.mp h
      rw [length_cons, length_cons, ih hws]

theorem Finishes.bind {α : Type} {s : Run ε α} {f : α → Run ε (List (Option Value))}
    {h : α → Run ε Value} (hfin : ∀ x, s.result = .ok x → Finishes name d n (f x) (h x)) :
    Finishes name d n (s.bind f) (s.bind h) := by
  cases hs : s.result with
  | error e =>
    rw [bind_error hs, bind_error hs]
    refine ⟨fun e' he => ?_, fun vs hvs => (nomatch hvs)⟩
    obtain rfl : e = e' := Except.error.inj he
    rfl
  | ok x =>
    rw [bind_ok hs, bind_ok hs]
    refine ⟨fun e he => ?_, fun vs hvs w hw hvalues => ?_⟩
    · rw [(hfin x hs).1 e he]
    · rw [(hfin x hs).2 vs hvs w hw hvalues, append_assoc]

theorem finishes_all (name : Name) (d : Description Ty ε) (rs : List (Run ε Value)) :
    Finishes name d rs.length (selected d 0 (List.replicate rs.length true) rs)
      ((sequence d 0 rs).bind fun vs => ⟨[name], d.function vs⟩) := by
  rw [selected_all]
  refine Finishes.bind fun vs hs => finishes_of_ok rfl fun w hw hvalues => ?_
  have hlen := sequence_length hs
  have hw' : w = vs := by
    refine ext_getElem? fun i => ?_
    rcases Nat.lt_or_ge i rs.length with hi | hi
    · have hi' : i < vs.length := by omega
      rw [hvalues i (vs[i]) hi (by simp), getElem?_eq_getElem]
    · rw [getElem?_eq_none (by omega), getElem?_eq_none (by omega)]
  rw [hw']
  rfl

/-- The arguments behind the first. -/
def firstThen (d : Description Ty ε) (a : Run ε Value) (ms : Value → List Bool)
    (rs : List (Run ε Value)) : Run ε (List (Option Value)) :=
  (converted d 0 a).bind fun x => (selected d 1 (ms x) rs).map (some x :: ·)

theorem finishes_connective {op : Option Bool → Option Bool → Option Bool}
    (a b : Run ε Value) (hstop : ∀ y, op (some stop) y = some stop)
    (hop : ∀ x y, d.function [x, y] = .ok (.ofTruth (op x.truth y.truth))) :
    Finishes name d 2 (firstThen d a (fun x => [decide (x.truth ≠ some stop)]) [b])
      (connective name stop op d a b) := by
  refine Finishes.bind fun x hx => ?_
  dsimp only
  by_cases ht : x.truth = some stop
  · rw [if_pos ht, decide_eq_false (not_not_intro ht)]
    refine finishes_of_ok rfl fun w hw hvalues => ?_
    obtain ⟨u, v, rfl⟩ := length_eq_two.mp hw
    obtain rfl : u = x := by simpa using hvalues 0 x (by omega) rfl
    rw [hop, ht, hstop]
    rfl
  · rw [if_neg ht, decide_eq_true ht, selected, map_bind]
    refine Finishes.bind fun y hy => finishes_of_ok rfl fun w hw hvalues => ?_
    obtain ⟨u, v, rfl⟩ := length_eq_two.mp hw
    obtain rfl : u = x := by simpa using hvalues 0 x (by omega) rfl
    obtain rfl : v = y := by simpa using hvalues 1 y (by omega) rfl
    rw [hop]
    rfl

theorem finishes_iif (hd : d.function = iif) (c a b : Run ε Value) :
    Finishes .iif d 3
      (firstThen d c (fun x => [decide (x.truth = some true), decide (x.truth ≠ some true)]) [a, b])
      (callRun .iif d [c, a, b]) := by
  refine Finishes.bind fun x hx => ?_
  dsimp only
  by_cases ht : x.truth = some true
  · rw [if_pos ht, decide_eq_true ht, decide_eq_false (not_not_intro ht), selected, map_bind]
    refine Finishes.bind fun y hy => finishes_of_ok rfl fun w hw hvalues => ?_
    obtain ⟨u, v, z, rfl⟩ := length_eq_three.mp hw
    obtain rfl : u = x := by simpa using hvalues 0 x (by omega) rfl
    obtain rfl : v = y := by simpa using hvalues 1 y (by omega) rfl
    rw [hd, iif_eq, if_pos ht]
    rfl
  · rw [if_neg ht, decide_eq_false ht, decide_eq_true ht, selected, selected, map_bind, map_bind]
    refine Finishes.bind fun y hy => finishes_of_ok rfl fun w hw hvalues => ?_
    obtain ⟨u, v, z, rfl⟩ := length_eq_three.mp hw
    obtain rfl : u = x := by simpa using hvalues 0 x (by omega) rfl
    obtain rfl : z = y := by simpa using hvalues 2 y (by omega) rfl
    rw [hd, iif_eq, if_neg ht]
    rfl

/-! ## All trees -/

theorem evalArgs_length (L : Library Ty ε) (env : Bind Ty → Value) (as : List (Tree Ty)) :
    (evalArgs L env as).length = as.length := by
  induction as with
  | nil => rfl
  | cons a as ih => rw [evalArgs, length_cons, length_cons, ih]

theorem typesOf_length {ts : List Ty} (h : typesOf L as = some ts) : ts.length = as.length := by
  induction as generalizing ts with
  | nil =>
    obtain rfl : [] = ts := by simpa [typesOf] using h
    rfl
  | cons a as ih =>
    obtain ⟨t, -, h⟩ := Option.bind_eq_some_iff.mp h
    obtain ⟨us, hus, rfl⟩ := Option.map_eq_some_iff.mp h
    rw [length_cons, length_cons, ih hus]

theorem safe_of_not_call (h : t.isCall = false) : t.Safe L env := by
  cases t with
  | call name args => cases h
  | ref b => trivial
  | const ty v => trivial

theorem quiet_of_not_call (h : t.isCall = false) : t.Quiet := by
  cases t with
  | call name args => cases h
  | ref b => trivial
  | const ty v => trivial

/-- A call with plain arguments. -/
theorem argsOk_of_safeArgs (hsame : ∀ j, guard name argIndex j g.1 g.2 = g)
    (hopen : skips K env σ g.1 g.2 = false) (h : SafeArgs L env as) (i : Nat) :
    ArgsOk L K env name argIndex g σ as (List.replicate as.length true) i := by
  induction as generalizing i with
  | nil => trivial
  | cons a as ih =>
    rw [length_cons, replicate_succ, ArgsOk, hsame]
    exact ⟨fun _ => hopen, h.1, fun hok => ih (h.2 (hok rfl)) (i + 1)⟩

section Call

variable {args : List (Tree Ty)} {slot lo hi mid : Nat} {g : Nat × Bool}
  {d : Description Ty ε} {argCode convCode : List (CompiledFunction ε)} {σ : Nat → Value}

variable {a : Tree Ty} {b : Tree Ty}

/-- The skip index of an operand behind the first tests the value of the first. -/
theorem skips_first {conv : Option (Value → Value)} {x : Value} (hlo : 0 < lo)
    (hready : ArgReady K env σ conv a lo k x) (huses : usesSlot conv a = false) (stop : Bool) :
    skips K env σ lo stop = (stop == x.holds) := by
  rw [skips, hready.read_eq huses]
  have hne : (lo != 0) = true := by simp; omega
  rw [hne, Bool.true_and]

/-- The operands of a connective: the second is left out if the first is `stop`.  A first one
that is null leaves it out only under a call. -/
theorem connective_done (hall : ∀ t ∈ [a, b], Behaves L K env t)
    (hguard : guard name lo 1 g.1 g.2 = (lo, stop))
    (hlaid : LaidArgs L K name d lo g [a, b] 0 (lo + 2) mid mid hi argCode convCode) (hlo : 0 < lo)
    (hg : g.1 = 0 ∨ g.1 < lo) (hopen : skips K env σ g.1 g.2 = false) (ha : a.Safe L env)
    (hlate : b.isCall = true → usesSlot (d.converter 0) a = false)
    (hb : ∀ x, (converted d 0 (a.eval L env)).result = .ok x →
      (b.isCall = true → (stop == x.holds) = decide (x.truth = some stop)) ∧
        if x.truth = some stop then b.Quiet else b.Safe L env) :
    ArgsDone K env lo lo hi (convCode ++ argCode) σ
      (firstThen d (a.eval L env) (fun x => [decide (x.truth ≠ some stop)]) [b.eval L env]) := by
  refine guarded_args_done hall hg hlaid ha hopen (fun huses t ht => ?_) fun x hx σ₁ hready _ => ?_
  · obtain rfl := mem_singleton.mp ht
    cases hcall : t.isCall with
    | false => rfl
    | true =>
      rw [hlate hcall] at huses
      cases huses
  · obtain ⟨hskip, hcond⟩ := hb x hx
    rw [ArgsOk, hguard]
    refine ⟨fun hcall => ?_, ?_, fun _ => trivial⟩
    · rw [skips_first hlo hready (hlate hcall), hskip hcall, decide_not, Bool.not_not]
    · by_cases ht : x.truth = some stop <;> simpa using hcond

theorem iif_done {c : Tree Ty} (hall : ∀ t ∈ [c, a, b], Behaves L K env t)
    (hd : describe L .iif [c, a, b] = some d) (hconv : d.converter 0 = none)
    (hlaid : LaidArgs L K .iif d lo g [c, a, b] 0 (lo + 3) mid mid hi argCode convCode)
    (hsafe : (Tree.call .iif [c, a, b]).Safe L env) (hlo : 0 < lo) (hg : g.1 = 0 ∨ g.1 < lo)
    (hopen : skips K env σ g.1 g.2 = false) :
    ArgsDone K env lo lo hi (convCode ++ argCode) σ
      (firstThen d (c.eval L env)
        (fun x => [decide (x.truth = some true), decide (x.truth ≠ some true)])
        [a.eval L env, b.eval L env]) := by
  obtain ⟨hc, hbranch⟩ := hsafe d hd
  have huses : usesSlot (d.converter 0) c = false := by rw [hconv]; rfl
  refine guarded_args_done hall hg hlaid hc hopen (fun h => ?_) fun x hx σ₁ hready _ => ?_
  · rw [huses] at h
    cases h
  · have hh := holds_iff x
    have hskip := skips_first hlo hready huses
    change (_ → skips K env σ₁ lo false = _) ∧ _ ∧ (_ → (_ → skips K env σ₁ lo true = _) ∧ _)
    by_cases ht : x.truth = some true <;> simp_all [ArgsOk]

/-- The arguments of a quiet call that is skipped: a guarded one is no call, the others
inherit the skip index. -/
theorem argsOk_of_quiet {argIndex : Nat} {as : List (Tree Ty)}
    (hskip : skips K env σ g.1 g.2 = true) (h : QuietArgs name as i) :
    ArgsOk L K env name argIndex g σ as (List.replicate as.length false) i := by
  induction as generalizing i with
  | nil => trivial
  | cons a as ih =>
    obtain ⟨hq, hqs⟩ := h
    rw [length_cons, replicate_succ, ArgsOk]
    cases hgd : guarded name i with
    | true =>
      rw [hgd] at hq
      refine ⟨fun hcall => ?_, quiet_of_not_call hq, fun _ => ih hqs⟩
      rw [hq] at hcall
      cases hcall
    | false =>
      rw [hgd] at hq
      rw [guard_of_not_guarded hgd]
      exact ⟨fun _ => hskip, hq, fun _ => ih hqs⟩

theorem selected_none (d : Description Ty ε) (i : Nat) (rs : List (Run ε Value)) :
    selected d i (List.replicate rs.length false) rs =
      ⟨[], .ok (List.replicate rs.length none)⟩ := by
  induction rs generalizing i with
  | nil => rfl
  | cons r rs ih =>
    rw [length_cons, replicate_succ, selected, ih]
    rfl

end Call

theorem behaves_call (name : Name) (args : List (Tree Ty))
    (hall : ∀ a ∈ args, Behaves L K env a) : Behaves L K env (.call name args) := by
  refine ⟨fun {slot g lo hi code} hlaid hsafe => ?_, fun {slot g lo hi code} hlaid hquiet => ?_⟩
  · intro σ hlo hslot hg hopen
    obtain ⟨hK, d, mid, argCode, convCode, hd, hargs, rfl⟩ := hlaid
    have hg' : g.1 = 0 ∨ g.1 < lo := by omega
    have heval : (Tree.call name args).eval L env = callRun name d (evalArgs L env args) := by
      rw [Tree.eval, hd]
    obtain ⟨ts, htypes, hfind⟩ := Option.bind_eq_some_iff.mp hd
    have hts := typesOf_length htypes
    rw [heval]
    -- the outcome of the arguments, and how the call finishes it
    obtain ⟨r, hdone, hfin⟩ : ∃ r, ArgsDone K env lo lo hi (convCode ++ argCode) σ r ∧
        Finishes name d args.length r (callRun name d (evalArgs L env args)) := by
      cases name with
      | and =>
        obtain ⟨hfun, hlen⟩ := L.find_and hfind
        obtain ⟨a, b, rfl⟩ := length_eq_two.mp (hts.symm.trans hlen)
        obtain ⟨ha, hlate, hb⟩ := hsafe d hd
        refine ⟨_, connective_done hall rfl hargs hlo hg' (hopen rfl) ha hlate fun x hx => ?_, ?_⟩
        · have hh := holds_iff x
          rcases hx : x.truth with _ | _ | _ <;> simp_all [safe_of_not_call]
        exact finishes_connective _ _ (fun _ => rfl) fun x y => by rw [hfun, logicalAnd_eq]
      | or =>
        obtain ⟨hfun, hlen⟩ := L.find_or hfind
        obtain ⟨a, b, rfl⟩ := length_eq_two.mp (hts.symm.trans hlen)
        obtain ⟨ha, hlate, hb⟩ := hsafe d hd
        refine ⟨_, connective_done hall rfl hargs hlo hg' (hopen rfl) ha hlate fun x hx => ?_, ?_⟩
        · refine ⟨fun _ => ?_, hb x hx⟩
          have hh := holds_iff x
          by_cases ht : x.truth = some true <;> simp_all
        exact finishes_connective _ _ (fun _ => rfl) fun x y => by rw [hfun, logicalOr_eq]
      | iif =>
        obtain ⟨hfun, hlen, hconv⟩ := L.find_iif hfind
        obtain ⟨c, a, b, rfl⟩ := length_eq_three.mp (hts.symm.trans hlen)
        exact ⟨_, iif_done hall hd hconv hargs hsafe hlo hg' (hopen rfl), finishes_iif hfun _ _ _⟩
      | named s =>
        have hsame : ∀ j, guard (.named s) lo j g.1 g.2 = g := fun j => rfl
        have hsafe' : SafeArgs L env args := by
          exact hsafe d hd
        refine ⟨_, args_done hall hg' hargs hsame
          (argsOk_of_safeArgs hsame (hopen rfl) hsafe' 0), ?_⟩
        have h := finishes_all (.named s) d (evalArgs L env args)
        rw [evalArgs_length] at h
        exact h
    exact call_exec hdone hK hg' (hopen rfl) hfin
  · intro σ hlo hslot hg hskip
    obtain ⟨hK, d, mid, argCode, convCode, hd, hargs, rfl⟩ := hlaid
    have hg' : g.1 = 0 ∨ g.1 < lo := by omega
    have hle := LaidArgs.le hargs
    obtain ⟨σ₁, hrun, -, hframe⟩ := args_exec hall hg' hargs (.inr fun m => eq_of_mem_replicate)
      (Nat.le_refl _) (Nat.le_refl mid) (argsOk_of_quiet (hskip rfl) hquiet)
    have hexec : exec K env argCode.reverse σ = (σ₁, [], none) := by
      have hnone := selected_none d 0 (evalArgs L env args)
      rw [evalArgs_length] at hnone
      rw [hrun, hnone]
      rfl
    obtain ⟨σ₂, hexec₂, hframe₂, -⟩ := convs_exec σ₁ hargs
    have hout : ∀ j, (j < lo ∨ hi ≤ j) → σ₂ j = σ j := fun j hj => by
      rw [hframe₂ j (by omega), hframe j (by omega) (by omega) (by omega)]
    have hskip₂ := (skips_frame hg' fun j hj => hout j (.inl hj)).trans (hskip rfl)
    rw [reverse_cons, reverse_append, append_assoc, exec_append_ok hexec, exec_append_ok hexec₂]
    refine ⟨σ₂, ?_, hout⟩
    have hskip' : skips K env σ₂ (callAt name d.function lo args.length slot g.1 g.2).skipIndex
        (callAt name d.function lo args.length slot g.1 g.2).skipValue = true := hskip₂
    simp [exec, hskip']

/-- Laid out code behaves as its tree. -/
theorem behaves (L : Library Ty ε) (K : Nat → Kind Ty) (env : Bind Ty → Value) (t : Tree Ty) :
    Behaves L K env t := by
  induction t using Tree.forall_of_args with
  | hcall name args hall => exact behaves_call name args hall
  | _ =>
    refine ⟨fun hlaid _ => ?_, fun hlaid _ => ?_⟩
    · intro σ _ _ _ _
      obtain ⟨hK, -, rfl⟩ := hlaid
      refine ⟨σ, rfl, fun v hv => ?_, fun _ _ _ => rfl⟩
      rw [read, hK]
      exact Except.ok.inj hv
    · intro σ _ _ _ _
      obtain ⟨-, -, rfl⟩ := hlaid
      exact ⟨σ, rfl, fun _ _ => rfl⟩

end SciDB.Query.Expression
