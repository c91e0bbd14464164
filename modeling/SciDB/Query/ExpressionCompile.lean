import SciDB.Query.ExpressionLayout

/-!
# The compiler lays out code

`internalCompile` appends the functions of a call to those that exist, and `insertConverter`
searches the vector for the function or the context that fills a slot.  This file proves that
the search always finds the argument that the converter is meant for, so that the result is
laid out code.

Main results:

- Theorem {lit}`internalCompile_laid`: the compiler appends a segment that is laid out for its
  tree and leaves the other slots alone.
-/

namespace SciDB.Query.Expression

open List Option

variable {Ty ε : Type}

/-! ## Contexts -/

/-- The slots of all contexts. -/
def slots (cs : List (Bind Ty × List Nat)) : List Nat := cs.flatMap Prod.snd

/-- The binding of a slot. -/
def bindAt (cs : List (Bind Ty × List Nat)) (i : Nat) : Option (Bind Ty) :=
  (cs.find? fun c => i ∈ c.2).map Prod.fst

theorem bindAt_cons (c : Bind Ty × List Nat) (cs : List (Bind Ty × List Nat)) (i : Nat) :
    bindAt (c :: cs) i = if i ∈ c.2 then some c.1 else bindAt cs i := by
  simp only [bindAt]
  by_cases h : i ∈ c.2 <;> simp [h]

variable {cs : List (Bind Ty × List Nat)} {i new old s : Nat} {a : Argument Ty} {E : Compiled Ty ε}
  {g : Nat × Bool} {l : List Nat} {arguments : List (Argument Ty)}

theorem bindAt_eq_none : bindAt cs i = none ↔ i ∉ slots cs := by
  induction cs with
  | nil => simp [bindAt, slots]
  | cons c cs ih =>
    rw [bindAt_cons, slots, flatMap_cons, mem_append, not_or, ← slots, ← ih]
    by_cases h : i ∈ c.2 <;> simp [h]

theorem perm_slots_addContext [DecidableEq Ty] (b : Bind Ty) (i : Nat)
    (cs : List (Bind Ty × List Nat)) : (slots (addContext b i cs)).Perm (i :: slots cs) := by
  induction cs with
  | nil => exact List.Perm.refl _
  | cons c cs ih =>
    rw [addContext]
    split
    · simp only [slots, flatMap_cons, append_assoc]
      exact perm_middle
    · exact (ih.append_left c.2).trans perm_middle

theorem bindAt_addContext [DecidableEq Ty] (b : Bind Ty) (hi : i ∉ slots cs) (j : Nat) :
    bindAt (addContext b i cs) j = if j = i then some b else bindAt cs j := by
  induction cs with
  | nil => simp only [addContext, bindAt_cons, mem_singleton]
  | cons c cs ih =>
    rw [slots, flatMap_cons, mem_append, not_or] at hi
    rw [addContext]
    split
    · rename_i hb
      subst hb
      simp only [bindAt_cons]
      by_cases hj : j = i
      · simp [hj]
      · simp [hj]
    · rw [bindAt_cons, bindAt_cons, ih hi.2]
      by_cases hj : j = i
      · subst hj
        simp [hi.1]
      · simp [hj]

theorem slots_moveContext (cs : List (Bind Ty × List Nat)) :
    slots (moveContext old new cs) = (slots cs).replace old new := by
  induction cs with
  | nil => rfl
  | cons c cs ih =>
    rw [moveContext]
    split
    · rename_i h
      simp only [slots, flatMap_cons]
      rw [replace_append_left h]
    · rename_i h
      simp only [slots, flatMap_cons] at ih ⊢
      rw [ih, replace_append_right h]

theorem perm_replace (hold : old ∈ l) : (l.replace old new).Perm (new :: l.erase old) := by
  induction l with
  | nil => cases hold
  | cons a l ih =>
    rw [replace_cons]
    by_cases ha : old = a
    · simp [ha]
    · rw [beq_false_of_ne ha, erase_cons_tail (by simpa using Ne.symm ha)]
      exact ((ih ((mem_cons.mp hold).resolve_left ha)).cons a).trans (.swap new a _)

theorem mem_replace (h : l.Nodup) (hold : old ∈ l) {x : Nat} :
    x ∈ l.replace old new ↔ x = new ∨ (x ∈ l ∧ x ≠ old) := by
  rw [(perm_replace hold).mem_iff, mem_cons, h.mem_erase_iff, and_comm]

theorem nodup_replace (h : l.Nodup) (hold : old ∈ l) (hnew : new ∉ l) : (l.replace old new).Nodup :=
  (perm_replace hold).nodup_iff.mpr
    (nodup_cons.mpr ⟨fun hmem => hnew (mem_of_mem_erase hmem), h.erase old⟩)

theorem bindAt_moveContext (hnodup : (slots cs).Nodup) (hold : old ∈ slots cs)
    (hnew : new ∉ slots cs) (j : Nat) :
    bindAt (moveContext old new cs) j =
      if j = new then bindAt cs old else if j = old then none else bindAt cs j := by
  induction cs with
  | nil => cases hold
  | cons c cs ih =>
    have hcons : slots (c :: cs) = c.2 ++ slots cs := rfl
    rw [hcons, nodup_append] at hnodup
    rw [hcons, mem_append] at hold
    rw [hcons, mem_append, not_or] at hnew
    rw [moveContext]
    by_cases hc : old ∈ c.2
    · have hrest : old ∉ slots cs := fun h => hnodup.2.2 old hc old h rfl
      rw [if_pos hc, bindAt_cons, bindAt_cons, bindAt_cons, if_pos hc]
      simp only [mem_replace hnodup.1 hc]
      by_cases hj : j = new
      · simp [hj]
      · by_cases hj' : j = old
        · subst hj'
          simp [bindAt_eq_none.mpr hrest]
        · simp [hj, hj']
    · have hold' : old ∈ slots cs := hold.resolve_left hc
      rw [if_neg hc, bindAt_cons, bindAt_cons, bindAt_cons, if_neg hc, ih hnodup.2.1 hold' hnew.2]
      by_cases hj : j = new
      · subst hj
        simp [hnew.1]
      · by_cases hj' : j = old
        · subst hj'
          simp [hc]
        · simp [hj, hj']

/-! ## The state of the compiler -/

/-- What a slot that no context fills points to. -/
def constAt (arguments : List (Argument Ty)) (i : Nat) : Kind Ty :=
  match arguments[i]? with
  | some a => if a.isConst then .const a.value else .temp
  | none => .temp

theorem constAt_eq_temp (ha : arguments[i]? = some a)
    (hc : a.isConst = false) : constAt arguments i = .temp := by
  simp [constAt, ha, hc]

variable (E)

theorem kind_eq (i : Nat) :
    E.kind i =
      match bindAt E.contexts i with
      | some b => .var b
      | none => constAt E.arguments i := by
  unfold Compiled.kind bindAt
  cases E.contexts.find? fun c => decide (i ∈ c.2) <;> rfl

/-- Every slot is filled by one context at most, and then it is no constant. -/
structure WellFormed : Prop where
  nodup : (slots E.contexts).Nodup
  isConst : ∀ j ∈ slots E.contexts, ∃ a, E.arguments[j]? = some a ∧ a.isConst = false

/-- A slot that nothing fills. -/
structure Vacant (i : Nat) : Prop where
  notMem : i ∉ slots E.contexts
  isConst : ∃ a, E.arguments[i]? = some a ∧ a.isConst = false

variable {E} {E' : Compiled Ty ε}

theorem Vacant.lt (h : Vacant E i) : i < E.arguments.length := by
  obtain ⟨a, ha, -⟩ := h.isConst
  exact (List.getElem?_eq_some_iff.mp ha).1

theorem WellFormed.lt (h : WellFormed E) (hi : i ∈ slots E.contexts) : i < E.arguments.length := by
  obtain ⟨a, ha, -⟩ := h.isConst i hi
  exact (List.getElem?_eq_some_iff.mp ha).1

theorem kind_congr (hctx : bindAt E'.contexts i = bindAt E.contexts i)
    (hargs : E'.arguments[i]? = E.arguments[i]?) : E'.kind i = E.kind i := by
  rw [kind_eq, kind_eq, hctx, constAt, constAt, hargs]

/-- A step that changes a slot which no context fills. -/
theorem WellFormed.congr (h : WellFormed E)
    (hctx : E'.contexts = E.contexts) (hs : s ∉ slots E.contexts)
    (hargs : ∀ j, j < E.arguments.length → j ≠ s → E'.arguments[j]? = E.arguments[j]?) :
    WellFormed E' := by
  refine ⟨hctx ▸ h.nodup, fun j hj => ?_⟩
  rw [hctx] at hj
  rw [hargs j (h.lt hj) fun hjs => hs (hjs ▸ hj)]
  exact h.isConst j hj

theorem Vacant.kind_eq (h : Vacant E i) : E.kind i = .temp := by
  obtain ⟨a, ha, hc⟩ := h.isConst
  simp [Expression.kind_eq, bindAt_eq_none.mpr h.notMem, constAt, ha, hc]

/-! ## Where laid out code looks and writes -/

variable {L : Library Ty ε} {K K' : Nat → Kind Ty} {P : Nat → Prop}
  {code convCode l₁ l₂ : List (CompiledFunction ε)} {conv : Option (Value → Value)} {k slot j argIndex lo hi : Nat}
  {as args : List (Tree Ty)} {name : Name}

theorem ArgLaid.congr {a : Tree Ty} {P' : Nat → Prop}
    (h : ArgLaid K conv a P slot k g lo hi code convCode) (hslot : K' slot = K slot)
    (hP : P slot → P' slot) (hPk : usesSlot conv a = true → P k → P' k) :
    ArgLaid K' conv a P' slot k g lo hi code convCode := by
  unfold ArgLaid at h ⊢
  split at h
  · exact ⟨hP h.1, h.2⟩
  · rw [hslot]
    exact h
  · rw [hslot]
    exact ⟨hPk rfl h.1, h.2⟩
  · rw [hslot]
    exact ⟨hPk rfl h.1, h.2⟩

mutual

/-- A segment depends on the kinds of its slots only. -/
theorem Laid.congr {t : Tree Ty} {slot : Nat} {g : Nat × Bool} {lo hi : Nat}
    {code : List (CompiledFunction ε)} (h : Laid L K t slot g lo hi code)
    (hslot : K' slot = K slot) (hK : ∀ j, lo ≤ j → j < hi → K' j = K j) :
    Laid L K' t slot g lo hi code := by
  cases t with
  | ref b =>
    rw [Laid] at h ⊢
    rwa [hslot]
  | const ty v =>
    rw [Laid] at h ⊢
    rwa [hslot]
  | call name args =>
    rw [Laid] at h ⊢
    obtain ⟨hs, d, mid, argCode, convCode, hd, hargs, rfl⟩ := h
    have hle := LaidArgs.le hargs
    refine ⟨hslot.trans hs, d, mid, argCode, convCode, hd, ?_, rfl⟩
    exact LaidArgs.congr hargs fun j hj => hK j (by omega) (by omega)

theorem LaidArgs.congr {as : List (Tree Ty)} {name : Name} {d : Description Ty ε} {argIndex : Nat}
    {g : Nat × Bool} {i lo hi klo khi : Nat} {code convCode : List (CompiledFunction ε)}
    (h : LaidArgs L K name d argIndex g as i lo hi klo khi code convCode)
    (hK : ∀ j, (argIndex + i ≤ j ∧ j < argIndex + i + as.length) ∨ (lo ≤ j ∧ j < hi) ∨
      (klo ≤ j ∧ j < khi) → K' j = K j) :
    LaidArgs L K' name d argIndex g as i lo hi klo khi code convCode := by
  cases as with
  | nil =>
    rw [LaidArgs] at h ⊢
    exact h
  | cons a as =>
    rw [LaidArgs] at h ⊢
    obtain ⟨m, codeA, codeR, convA, convR, hrest, harg, hcode, hconv⟩ := h
    have hle := LaidArgs.le hrest
    have hle' := harg.le
    have hnext := le_nextSlot (d.converter i) a klo
    rw [length_cons] at hK
    refine ⟨m, codeA, codeR, convA, convR, ?_, ?_, hcode, hconv⟩
    · exact LaidArgs.congr hrest fun j hj => hK j (by omega)
    · have hslot := hK (argIndex + i) (by omega)
      refine harg.congr hslot (fun hl => ?_) fun huses hl => ?_
      · exact Laid.congr hl hslot fun j h1 h2 => hK j (by omega)
      · have := nextSlot_of_uses huses klo
        exact Laid.congr hl (hK klo (by omega)) fun j h1 h2 => hK j (by omega)

end

/-- The result of a converter is the slot of its argument. -/
theorem ArgLaid.conv_results {a : Tree Ty}
    (h : ArgLaid K conv a P slot k g lo hi code convCode) :
    ∀ f ∈ convCode, f.resultIndex = slot := by
  unfold ArgLaid at h
  split at h
  · simp [h.2]
  · simp [h.2.2.2]
  · simp [h.2.2, converterAt]
  · simp [h.2.2, converterAt]

mutual

/-- A segment writes its slot and the slots it owns. -/
theorem Laid.results {t : Tree Ty} {slot : Nat} {g : Nat × Bool} {lo hi : Nat}
    {code : List (CompiledFunction ε)} (h : Laid L K t slot g lo hi code) :
    ∀ f ∈ code, f.resultIndex = slot ∨ (lo ≤ f.resultIndex ∧ f.resultIndex < hi) := by
  cases t with
  | ref b =>
    rw [Laid] at h
    simp [h.2.2]
  | const ty v =>
    rw [Laid] at h
    simp [h.2.2]
  | call name args =>
    rw [Laid] at h
    obtain ⟨-, d, mid, argCode, convCode, -, hargs, rfl⟩ := h
    have hle := LaidArgs.le hargs
    intro f hf
    rcases mem_cons.mp hf with rfl | hf
    · exact .inl rfl
    · have := LaidArgs.results hargs f (mem_append.mp hf)
      omega

theorem LaidArgs.results {as : List (Tree Ty)} {name : Name} {d : Description Ty ε} {argIndex : Nat}
    {g : Nat × Bool} {i lo hi klo khi : Nat} {code convCode : List (CompiledFunction ε)}
    (h : LaidArgs L K name d argIndex g as i lo hi klo khi code convCode) :
    ∀ f, f ∈ convCode ∨ f ∈ code →
      (argIndex + i ≤ f.resultIndex ∧ f.resultIndex < argIndex + i + as.length) ∨
      (lo ≤ f.resultIndex ∧ f.resultIndex < hi) ∨ (klo ≤ f.resultIndex ∧ f.resultIndex < khi) := by
  cases as with
  | nil =>
    rw [LaidArgs] at h
    simp [h.2.2]
  | cons a as =>
    rw [LaidArgs] at h
    obtain ⟨m, codeA, codeR, convA, convR, hrest, harg, rfl, rfl⟩ := h
    have hle := LaidArgs.le hrest
    have hle' := harg.le
    have hnext := le_nextSlot (d.converter i) a klo
    have hlen : (a :: as).length = as.length + 1 := rfl
    intro f hf
    rw [mem_append, mem_append, or_or_or_comm] at hf
    rcases hf with hf | hf | hf
    · have := LaidArgs.results hrest f hf
      omega
    · have := harg.conv_results f hf
      omega
    · rcases harg.cases with h | ⟨huses, h⟩ | ⟨-, h⟩
      · have := Laid.results h f hf
        omega
      · have := Laid.results h f hf
        have := nextSlot_of_uses huses klo
        omega
      · rw [h] at hf
        cases hf

end

/-! ## Inserting a converter -/

theorem find_resultIndex_eq_none {l : List (CompiledFunction ε)} (h : ∀ f ∈ l, f.resultIndex ≠ s) :
    (l.find? fun g => g.resultIndex = s) = none :=
  find?_eq_none.mpr fun f hf => by simpa using h f hf

theorem retarget_append {f : CompiledFunction ε} (h : ∀ f ∈ l₁, f.resultIndex ≠ s)
    (hf : f.resultIndex = s) (k : Nat) :
    retarget s k (l₁ ++ f :: l₂) = l₁ ++ { f with resultIndex := k } :: l₂ := by
  induction l₁ with
  | nil => simp [retarget, hf]
  | cons g l₁ ih =>
    rw [cons_append, retarget, if_neg (h g mem_cons_self),
      ih fun f hf => h f (mem_cons_of_mem _ hf)]
    rfl

theorem insertIdx_append (front l : List (CompiledFunction ε)) (f : CompiledFunction ε) :
    (front ++ l).insertIdx front.length f = front ++ f :: l :=
  modifyTailIdx_add (cons f) 0 front l

theorem modify_append (front l : List (CompiledFunction ε)) (x : CompiledFunction ε)
    (f : CompiledFunction ε → CompiledFunction ε) :
    (front ++ x :: l).modify front.length f = front ++ f x :: l :=
  modifyTailIdx_add (modifyHead f) 0 front (x :: l)

/-- The arguments after a slot has been copied to a new one and got a new type. -/
def copyArgument (arguments : List (Argument Ty)) (s : Nat) (newType : Ty) : List (Argument Ty) :=
  (arguments ++ (arguments[s]?).toList).modify s fun a => { a with type := newType }

section CopyArgument

variable {arguments : List (Argument Ty)} {s : Nat} {a : Argument Ty} {newType : Ty}

variable (ha : arguments[s]? = some a)

include ha

theorem length_copyArgument : (copyArgument arguments s newType).length = arguments.length + 1 := by
  simp [copyArgument, ha]

theorem getElem?_copyArgument (j : Nat) :
    (copyArgument arguments s newType)[j]? =
      if j = s then some { a with type := newType }
      else if j = arguments.length then some a else arguments[j]? := by
  have hs : s < arguments.length := (List.getElem?_eq_some_iff.mp ha).1
  rw [copyArgument, ha]
  by_cases hjs : j = s
  · subst hjs
    simp [ha, getElem?_append_left hs]
  · rw [if_neg hjs, getElem?_modify_ne _ _ (Ne.symm hjs)]
    by_cases hj : j = arguments.length
    · simp [hj]
    · rw [if_neg hj]
      rcases Nat.lt_or_gt_of_ne hj with hlt | hgt
      · exact getElem?_append_left hlt
      · rw [getElem?_eq_none (by simp; omega), getElem?_eq_none (Nat.le_of_lt hgt)]

theorem constAt_copyArgument (j : Nat) :
    constAt (copyArgument arguments s newType) j =
      if j = arguments.length then constAt arguments s else constAt arguments j := by
  simp only [constAt, getElem?_copyArgument ha]
  by_cases hjs : j = s
  · subst hjs
    simp [ha]
  · by_cases hj : j = arguments.length
    · simp [hj, ha, show ¬ arguments.length = s by omega]
    · simp [hjs, hj]

end CopyArgument

/-- The type of a slot, after a step that leaves the slot alone. -/
theorem typeAt_congr (void : Ty)
    (h : E'.arguments[j]? = E.arguments[j]?) : E'.typeAt void j = E.typeAt void j := by
  rw [Compiled.typeAt, Compiled.typeAt, h]

/-- The place of the search and that of the converter. -/
structure InsertsAt (functionIndex : Option Nat) (front : List (CompiledFunction ε)) : Prop where
  position : insertPosition functionIndex = front.length
  start : functionIndex.getD 0 ≤ front.length

section Insert

variable {E : Compiled Ty ε} {front back codeA rest : List (CompiledFunction ε)}
  {functionIndex : Option Nat} {a : Tree Ty} {s lo hi : Nat} {g : Nat × Bool} {v : Value}
  {b : Bind Ty} {ty : Ty}

/-- What a step of the loop over the converters does: the argument in slot `s` is laid out
with its converter, and nothing else changes. -/
structure Inserts (L : Library Ty ε) (c : Value → Value) (a : Tree Ty) (s lo hi : Nat)
    (g : Nat × Bool) (E E' : Compiled Ty ε) (front back rest : List (CompiledFunction ε)) :
    Prop where
  laid : ∃ code convCode, E'.functions = front ++ (convCode ++ (back ++ (code ++ rest))) ∧
    ArgLaid E'.kind (some c) a (fun s' => Laid L E'.kind a s' g lo hi code) s
      E.arguments.length g lo hi code convCode
  length : E'.arguments.length = nextSlot (some c) a E.arguments.length
  wellFormed : WellFormed E'
  kind : ∀ j, j < E.arguments.length → j ≠ s → E'.kind j = E.kind j
  type : ∀ j, j < E.arguments.length → j ≠ s → E'.typeAt L.void j = E.typeAt L.void j

/-- The functions before the argument's own do not fill its slot. -/
def Passes (functionIndex : Option Nat) (front back : List (CompiledFunction ε)) (s : Nat) :
    Prop :=
  ∀ f ∈ front.drop (functionIndex.getD 0) ++ back, f.resultIndex ≠ s

theorem drop_functions (hat : InsertsAt functionIndex front) (l : List (CompiledFunction ε)) :
    (front ++ (back ++ l)).drop (functionIndex.getD 0) =
      (front.drop (functionIndex.getD 0) ++ back) ++ l := by
  rw [drop_append_of_le_length hat.start, append_assoc]

theorem find_eq_none (hat : InsertsAt functionIndex front)
    (hE : E.functions = front ++ (back ++ rest)) (hpass : Passes functionIndex front back s)
    (hrest : ∀ f ∈ rest, f.resultIndex ≠ s) :
    ((E.functions.drop (functionIndex.getD 0)).find? fun g => g.resultIndex = s) = none := by
  rw [hE, drop_functions hat]
  exact find_resultIndex_eq_none (forall_mem_append.mpr ⟨hpass, hrest⟩)

theorem any_contexts (cs : List (Bind Ty × List Nat)) (s : Nat) :
    (cs.any fun c => decide (s ∈ c.2)) = (bindAt cs s).isSome := by
  induction cs with
  | nil => rfl
  | cons c cs ih =>
    rw [any_cons, bindAt_cons, ih]
    by_cases h : s ∈ c.2 <;> simp [h]

theorem kind_cases (E : Compiled Ty ε) (s : Nat) :
    (∃ b, bindAt E.contexts s = some b ∧ E.kind s = .var b) ∨ bindAt E.contexts s = none ∧
      ((∃ a, E.arguments[s]? = some a ∧ a.isConst = true ∧ E.kind s = .const a.value) ∨
        (∀ a, E.arguments[s]? = some a → a.isConst = false) ∧ E.kind s = .temp) := by
  rw [kind_eq]
  cases bindAt E.contexts s with
  | some b => exact .inl ⟨b, rfl, rfl⟩
  | none =>
    refine .inr ⟨rfl, ?_⟩
    dsimp only [constAt]
    cases E.arguments[s]? with
    | none => exact .inr ⟨fun a ha => (nomatch ha), rfl⟩
    | some a => cases hc : a.isConst <;> simp

theorem bindAt_of_kind_const (h : E.kind s = .const v) :
    bindAt E.contexts s = none ∧
      ∃ b, E.arguments[s]? = some b ∧ b.isConst = true ∧ b.value = v := by
  rcases kind_cases E s with ⟨b, hb, hK⟩ | ⟨hb, ⟨a, ha, hc, hK⟩ | ⟨ha, hK⟩⟩ <;>
    cases hK.symm.trans h
  exact ⟨hb, a, ha, hc, rfl⟩

theorem bindAt_of_kind_var (h : E.kind s = .var b) : bindAt E.contexts s = some b := by
  rcases kind_cases E s with ⟨b, hb, hK⟩ | ⟨hb, ⟨a, ha, hc, hK⟩ | ⟨ha, hK⟩⟩ <;>
    cases hK.symm.trans h
  exact hb

theorem bindAt_of_kind_temp (h : E.kind s = .temp) (hs : s < E.arguments.length) :
    bindAt E.contexts s = none ∧ ∃ b, E.arguments[s]? = some b ∧ b.isConst = false := by
  have hget := getElem?_eq_getElem hs
  rcases kind_cases E s with ⟨b, hb, hK⟩ | ⟨hb, ⟨a, ha, hc, hK⟩ | ⟨ha, hK⟩⟩ <;>
    cases hK.symm.trans h
  exact ⟨hb, _, hget, ha _ hget⟩

theorem insertConverter_const (ty : Ty) (c : Value → Value) {cty : Ty}
    (hat : InsertsAt functionIndex front) (hE : E.functions = front ++ (back ++ rest))
    (hpass : Passes functionIndex front back s) (hrest : ∀ f ∈ rest, f.resultIndex ≠ s)
    (hK : E.kind s = .const v) (hwf : WellFormed E) :
    Inserts L c (.const cty v) s lo lo g E (insertConverter ty c s functionIndex E) front back
      rest := by
  obtain ⟨hbind, b, hb, hconst, hval⟩ := bindAt_of_kind_const hK
  have hE' : insertConverter ty c s functionIndex E =
      { E with arguments := E.arguments.modify s fun a =>
          { a with type := ty, value := c a.value } } := by
    unfold insertConverter
    simp only [find_eq_none hat hE hpass hrest, any_contexts, hbind]
    rfl
  have hsame : ∀ j, j ≠ s →
      (insertConverter ty c s functionIndex E).arguments[j]? = E.arguments[j]? := by
    intro j hj
    rw [hE', getElem?_modify_ne _ _ hj.symm]
  have hctx : (insertConverter ty c s functionIndex E).contexts = E.contexts := by rw [hE']
  refine ⟨⟨[], [], ?_, ?_, rfl, rfl, rfl⟩, ?_, ?_, fun j hj hne => ?_, fun j hj hne => ?_⟩
  · rw [hE']
    exact hE
  · rw [kind_eq, hctx, hbind]
    simp [constAt, hE', hb, hconst, hval]
  · rw [hE', length_modify]
    rfl
  · exact hwf.congr hctx (bindAt_eq_none.mp hbind) fun j _ => hsame j
  · exact kind_congr (by rw [hctx]) (hsame j hne)
  · exact typeAt_congr _ (hsame j hne)

theorem kind_copyArgument {b : Argument Ty}
    (hargs : E'.arguments = copyArgument E.arguments s ty) (hb : E.arguments[s]? = some b)
    (hj : j < E.arguments.length) (hctx : bindAt E'.contexts j = bindAt E.contexts j) :
    E'.kind j = E.kind j := by
  have hne : ¬ j = E.arguments.length := by omega
  rw [kind_eq, kind_eq, hctx, hargs]
  simp [constAt_copyArgument hb, if_neg hne]

theorem type_copyArgument {b : Argument Ty} (void : Ty)
    (hargs : E'.arguments = copyArgument E.arguments s ty) (hb : E.arguments[s]? = some b)
    (hj : j < E.arguments.length) (hne : j ≠ s) :
    E'.typeAt void j = E.typeAt void j := by
  refine typeAt_congr void ?_
  rw [hargs, getElem?_copyArgument hb, if_neg hne, if_neg (by omega)]

theorem insertConverter_ref (ty : Ty) (c : Value → Value) (hat : InsertsAt functionIndex front)
    (hE : E.functions = front ++ (back ++ rest)) (hpass : Passes functionIndex front back s)
    (hrest : ∀ f ∈ rest, f.resultIndex ≠ s) (hK : E.kind s = .var b) (hwf : WellFormed E) :
    Inserts L c (.ref b) s lo lo g E (insertConverter ty c s functionIndex E) front back rest := by
  have hbind := bindAt_of_kind_var hK
  have hmem : s ∈ slots E.contexts := by
    by_contra h
    rw [bindAt_eq_none.mpr h] at hbind
    cases hbind
  obtain ⟨r, hr, hconst⟩ := hwf.isConst s hmem
  have hlt := hwf.lt hmem
  have hnew : E.arguments.length ∉ slots E.contexts := fun h => Nat.lt_irrefl _ (hwf.lt h)
  have hE' : insertConverter ty c s functionIndex E =
      { functions := front ++ converterAt c E.arguments.length s 0 false :: (back ++ rest)
        arguments := copyArgument E.arguments s ty
        contexts := moveContext s E.arguments.length E.contexts } := by
    unfold insertConverter
    simp only [find_eq_none hat hE hpass hrest, any_contexts, hbind, hat.position]
    rw [hE, insertIdx_append]
    rfl
  generalize insertConverter ty c s functionIndex E = E' at hE'
  have hargs : E'.arguments = copyArgument E.arguments s ty := by rw [hE']
  have hctx : E'.contexts = moveContext s E.arguments.length E.contexts := by rw [hE']
  have hbindAt := bindAt_moveContext hwf.nodup hmem hnew
  have hKs : E'.kind s = .temp := by
    rw [kind_eq, hctx, hbindAt, if_neg (by omega), if_pos rfl]
    simp [hargs, constAt_copyArgument hr, constAt_eq_temp hr hconst]
  have hKk : E'.kind E.arguments.length = .var b := by
    rw [kind_eq, hctx, hbindAt, if_pos rfl, hbind]
  refine ⟨⟨[], [converterAt c E.arguments.length s 0 false], ?_, ⟨hKk, rfl, rfl⟩, hKs, rfl⟩, ?_,
    ?_, fun j hj hne => ?_, fun j hj hne => ?_⟩
  · rw [hE']
    rfl
  · rw [hargs, length_copyArgument hr]
    rfl
  · refine ⟨?_, fun j hj => ?_⟩
    · rw [hctx, slots_moveContext]
      exact nodup_replace hwf.nodup hmem hnew
    · rw [hctx, slots_moveContext, mem_replace hwf.nodup hmem] at hj
      rw [hargs, getElem?_copyArgument hr]
      rcases hj with rfl | ⟨hj, hne⟩
      · exact ⟨r, by rw [if_neg (by omega), if_pos rfl], hconst⟩
      · have := hwf.lt hj
        rw [if_neg hne, if_neg (by omega)]
        exact hwf.isConst j hj
  · refine kind_copyArgument hargs hr hj ?_
    rw [hctx, hbindAt, if_neg (by omega), if_neg hne]
  · exact type_copyArgument _ hargs hr hj hne

theorem insertConverter_call (ty : Ty) (c : Value → Value)
    (hat : InsertsAt functionIndex front)
    (hE : E.functions = front ++ (back ++ (codeA ++ rest)))
    (hpass : Passes functionIndex front back s)
    (hlaid : Laid L E.kind (.call name args) s g lo hi codeA) (hwf : WellFormed E)
    (hs : s < lo) (hhi : hi ≤ E.arguments.length) :
    Inserts L c (.call name args) s lo hi g E (insertConverter ty c s functionIndex E) front back
      rest := by
  have hle := hlaid.le
  obtain ⟨hK, d, mid, argCode, convCode, hd, hargs, rfl⟩ := hlaid
  obtain ⟨hbind, r, hr, hconst⟩ := bindAt_of_kind_temp hK (by omega)
  have hnew : bindAt E.contexts E.arguments.length = none :=
    bindAt_eq_none.mpr fun h => Nat.lt_irrefl _ (hwf.lt h)
  have hE' : insertConverter ty c s functionIndex E =
      { functions := front ++ converterAt c E.arguments.length s g.1 g.2 :: (back ++
          (callAt name d.function lo args.length E.arguments.length g.1 g.2 ::
            (convCode ++ argCode) ++ rest))
        arguments := copyArgument E.arguments s ty
        contexts := E.contexts } := by
    have htake : E.functions.take (functionIndex.getD 0) = front.take (functionIndex.getD 0) := by
      rw [hE, take_append_of_le_length hat.start]
    have hjoin : ∀ l, front.take (functionIndex.getD 0) ++
        (front.drop (functionIndex.getD 0) ++ back ++ l) = front ++ (back ++ l) := by
      intro l
      rw [append_assoc, ← append_assoc, take_append_drop]
    unfold insertConverter
    simp only [htake]
    rw [hE, drop_functions hat, cons_append, find?_append, find_resultIndex_eq_none hpass,
      Option.none_or, find?_cons_of_pos (by simp [callAt]), retarget_append hpass rfl]
    simp only [hat.position, hjoin]
    rw [insertIdx_append]
    rfl
  generalize insertConverter ty c s functionIndex E = E' at hE'
  have hargs' : E'.arguments = copyArgument E.arguments s ty := by rw [hE']
  have hctx : E'.contexts = E.contexts := by rw [hE']
  have hkind : ∀ j, j < E.arguments.length → E'.kind j = E.kind j :=
    fun j hj => kind_copyArgument hargs' hr hj (by rw [hctx])
  have hKk : E'.kind E.arguments.length = .temp := by
    rw [kind_eq, hctx, hnew]
    simp [hargs', constAt_copyArgument hr, constAt_eq_temp hr hconst]
  have hLe := LaidArgs.le hargs
  refine ⟨⟨callAt name d.function lo args.length E.arguments.length g.1 g.2 ::
      (convCode ++ argCode), [converterAt c E.arguments.length s g.1 g.2], ?_, ?_, ?_, rfl⟩, ?_, ?_,
    fun j hj _ => hkind j hj, fun j hj hne => type_copyArgument _ hargs' hr hj hne⟩
  · rw [hE']
    rfl
  · refine ⟨hKk, d, mid, argCode, convCode, hd, ?_, rfl⟩
    exact hargs.congr fun j h => hkind j (by omega)
  · rw [hkind s (by omega)]
    exact hK
  · rw [hargs', length_copyArgument hr]
    rfl
  · refine hwf.congr hctx (bindAt_eq_none.mp hbind) fun j hj hne => ?_
    rw [hargs', getElem?_copyArgument hr, if_neg hne, if_neg (Nat.ne_of_lt hj)]

/-- The search finds the argument in slot `s`, whatever fills it. -/
theorem insertConverter_inserts (ty : Ty) (c : Value → Value)
    (hat : InsertsAt functionIndex front)
    (hE : E.functions = front ++ (back ++ (codeA ++ rest)))
    (hpass : Passes functionIndex front back s) (hrest : ∀ f ∈ rest, f.resultIndex ≠ s)
    (hlaid : Laid L E.kind a s g lo hi codeA) (hwf : WellFormed E) (hs : s < lo)
    (hhi : hi ≤ E.arguments.length) :
    Inserts L c a s lo hi g E (insertConverter ty c s functionIndex E) front back rest := by
  cases a with
  | ref b =>
    obtain ⟨hK, rfl, rfl⟩ := hlaid
    exact insertConverter_ref ty c hat hE hpass hrest hK hwf
  | const cty v =>
    obtain ⟨hK, rfl, rfl⟩ := hlaid
    exact insertConverter_const ty c hat hE hpass hrest hK hwf
  | call name args => exact insertConverter_call ty c hat hE hpass hlaid hwf hs hhi

end Insert

/-! ## The converters of a call -/

/-- Without converters, the slots of converters do not matter. -/
theorem LaidArgs.of_no_converters {d d' : Description Ty ε} :
    ∀ {i lo hi k k' : Nat}
    {code : List (CompiledFunction ε)},
    LaidArgs L K name d argIndex g as i lo hi k k code [] → d.converters = [] →
    (∀ j, i ≤ j → d'.converter j = none) →
    LaidArgs L K name d' argIndex g as i lo hi k' k' code [] := by
  induction as with
  | nil =>
    intro i lo hi k k' code h _ _
    exact ⟨h.1, rfl, h.2.2.1, rfl⟩
  | cons a as ih =>
    intro i lo hi k k' code h hd hd'
    have hnone : d.converter i = none := by simp [Description.converter, hd]
    rw [LaidArgs, hnone] at h
    obtain ⟨m, codeA, codeR, convA, convR, hrest, harg, rfl, hconv⟩ := h
    obtain ⟨rfl, rfl⟩ := append_eq_nil_iff.mp hconv.symm
    rw [LaidArgs, hd' i (Nat.le_refl i)]
    exact ⟨m, codeA, codeR, [], [], ih hrest hd fun j hj => hd' j (by omega), harg, rfl, rfl⟩

section Converters

variable {name : Name} {d d₀ : Description Ty ε} {argIndex i : Nat} {g : Nat × Bool}
  {pre : List (CompiledFunction ε)} {head : CompiledFunction ε} {as : List (Tree Ty)}

/-- What the loop over the converters leaves. -/
structure Converts (L : Library Ty ε) (name : Name) (d : Description Ty ε) (argIndex : Nat)
    (g : Nat × Bool) (as : List (Tree Ty)) (i lo hi : Nat) (E E' : Compiled Ty ε)
    (front convPrev codePrev : List (CompiledFunction ε)) : Prop where
  laid : ∃ code convCode,
    E'.functions = front ++ (convCode ++ (convPrev ++ (code ++ codePrev))) ∧
    LaidArgs L E'.kind name d argIndex g as i lo hi E.arguments.length E'.arguments.length code
      convCode
  wellFormed : WellFormed E'
  length : E.arguments.length ≤ E'.arguments.length
  kind : ∀ j, j < E.arguments.length → (j < argIndex + i ∨ argIndex + i + as.length ≤ j) →
    E'.kind j = E.kind j
  type : ∀ j, j < E.arguments.length → (j < argIndex + i ∨ argIndex + i + as.length ≤ j) →
    E'.typeAt L.void j = E.typeAt L.void j

theorem converter_of_drop {x : Option (Ty × (Value → Value))}
    {cs : List (Option (Ty × (Value → Value)))} (h : d.converters.drop i = x :: cs) :
    d.converter i = x.map Prod.snd ∧ d.converters.drop (i + 1) = cs := by
  have hi : d.converters[i]? = some x := by
    rw [← Nat.add_zero i, ← getElem?_drop, h]
    rfl
  refine ⟨by simp [Description.converter, hi], ?_⟩
  rw [← drop_drop, h]
  rfl

/-- One more argument in front of those that the loop has dealt with. -/
theorem Converts.cons {a : Tree Ty} {m : Nat} {E E₁ : Compiled Ty ε}
    {front convPrev codePrev codeA convA : List (CompiledFunction ε)}
    (h : Converts L name d argIndex g as (i + 1) lo m E₁ E' front (convA ++ convPrev)
      (codeA ++ codePrev))
    (hlen : E₁.arguments.length = nextSlot (d.converter i) a E.arguments.length)
    (hkind : ∀ j, j < E.arguments.length → j ≠ argIndex + i → E₁.kind j = E.kind j)
    (htype : ∀ j, j < E.arguments.length → j ≠ argIndex + i →
      E₁.typeAt L.void j = E.typeAt L.void j)
    (harg : ArgLaid E₁.kind (d.converter i) a
      (fun s => Laid L E₁.kind a s (guard name argIndex i g.1 g.2) m hi codeA) (argIndex + i)
      E.arguments.length (guard name argIndex i g.1 g.2) m hi codeA convA)
    (hlo : argIndex + i + (as.length + 1) ≤ m) (hhi : hi ≤ E.arguments.length) (hm : m ≤ hi) :
    Converts L name d argIndex g (a :: as) i lo hi E E' front convPrev codePrev := by
  have hnext := le_nextSlot (d.converter i) a E.arguments.length
  have hcons : (a :: as).length = as.length + 1 := rfl
  obtain ⟨code, convCode, hfun, hlaid⟩ := h.laid
  have hlen' := h.length
  refine ⟨⟨code ++ codeA, convCode ++ convA, ?_, ?_⟩, h.wellFormed, by omega,
    fun j hj hout => ?_, fun j hj hout => ?_⟩
  · rw [hfun]
    simp
  · rw [LaidArgs, ← hlen]
    refine ⟨m, codeA, code, convA, convCode, hlaid, ?_, rfl, rfl⟩
    have hK : ∀ j, j < E₁.arguments.length → j < argIndex + (i + 1) ∨ m ≤ j →
        E'.kind j = E₁.kind j := fun j hj hout => h.kind j hj (by omega)
    have hslot := hK (argIndex + i) (by omega) (by omega)
    refine harg.congr hslot (fun hl => ?_) fun huses hl => ?_
    · exact hl.congr hslot fun j h1 h2 => hK j (by omega) (by omega)
    · have := nextSlot_of_uses huses E.arguments.length
      exact hl.congr (hK _ (by omega) (by omega)) fun j h1 h2 => hK j (by omega) (by omega)
  · rw [h.kind j (by omega) (by omega), hkind j hj (by omega)]
  · rw [h.type j (by omega) (by omega), htype j hj (by omega)]

theorem insertConverters_converts (hd₀ : d₀.converters = []) :
    ∀ {cs : List (Option (Ty × (Value → Value)))} {i lo hi k : Nat} {E : Compiled Ty ε}
      {code convPrev codePrev : List (CompiledFunction ε)},
      cs.length ≤ as.length → d.converters.drop i = cs →
      E.functions = pre ++ head :: (convPrev ++ (code ++ codePrev)) →
      LaidArgs L E.kind name d₀ argIndex g as i lo hi k k code [] →
      (∀ f ∈ head :: (convPrev ++ codePrev),
        f.resultIndex < argIndex + i ∨ argIndex + i + as.length ≤ f.resultIndex) →
      argIndex + i + as.length ≤ lo → hi ≤ E.arguments.length → WellFormed E →
      Converts L name d argIndex g as i lo hi E
        (insertConverters argIndex pre.length cs i E) (pre ++ [head]) convPrev codePrev := by
  induction as with
  | nil =>
    intro cs i lo hi k E code convPrev codePrev hlen hdrop hE hlaid hres hlo hhi hwf
    obtain rfl : cs = [] := length_eq_zero_iff.mp (Nat.le_zero.mp hlen)
    obtain ⟨rfl, -, rfl, -⟩ := hlaid
    refine ⟨⟨[], [], ?_, ?_⟩, hwf, Nat.le_refl _, fun _ _ _ => rfl, fun _ _ _ => rfl⟩
    · rw [insertConverters, hE]
      simp
    · exact ⟨rfl, rfl, rfl, rfl⟩
  | cons a as ih =>
    intro cs i lo hi k E code convPrev codePrev hlen hdrop hE hlaid hres hlo hhi hwf
    have hcons : (a :: as).length = as.length + 1 := rfl
    cases cs with
    | nil =>
      have hnone : ∀ j, i ≤ j → d.converter j = none := by
        intro j hj
        have hshort : d.converters.length ≤ i := drop_eq_nil_iff.mp hdrop
        simp [Description.converter, getElem?_eq_none (show d.converters.length ≤ j by omega)]
      refine ⟨⟨code, [], ?_, hlaid.of_no_converters hd₀ hnone⟩, hwf, Nat.le_refl _,
        fun _ _ _ => rfl, fun _ _ _ => rfl⟩
      rw [insertConverters, hE]
      simp
    | cons x cs =>
      obtain ⟨hconv, hdrop'⟩ := converter_of_drop hdrop
      have hnone : d₀.converter i = none := by simp [Description.converter, hd₀]
      rw [LaidArgs, hnone] at hlaid
      obtain ⟨m, codeA, codeR, convA, convR, hrest, ⟨hA, -⟩, rfl, hnil⟩ := hlaid
      obtain ⟨rfl, rfl⟩ := append_eq_nil_iff.mp hnil.symm
      have hnext₀ : nextSlot none a k = k := rfl
      have hle := LaidArgs.le hrest
      have hle' := hA.le
      have hlen' : cs.length ≤ as.length := by
        simp only [length_cons] at hlen
        omega
      -- what the argument itself adds does not fill the slots of later ones
      have hout : ∀ convA codeA' : List (CompiledFunction ε),
          (∀ f ∈ convA, f.resultIndex = argIndex + i) →
          (∀ f ∈ codeA', f.resultIndex = argIndex + i ∨ m ≤ f.resultIndex) →
          ∀ f ∈ head :: ((convA ++ convPrev) ++ (codeA' ++ codePrev)),
            f.resultIndex < argIndex + (i + 1) ∨
              argIndex + (i + 1) + as.length ≤ f.resultIndex := by
        intro convA codeA' hconvA hcodeA f hf
        simp only [mem_cons, mem_append] at hf hres
        rcases hf with hf | (hf | hf) | hf | hf
        · have := hres f (.inl hf)
          omega
        · have := hconvA f hf
          omega
        · have := hres f (.inr (.inl hf))
          omega
        · have := hcodeA f hf
          omega
        · have := hres f (.inr (.inr hf))
          omega
      cases x with
      | none =>
        have hE' : E.functions =
            pre ++ head :: (([] ++ convPrev) ++ (codeR ++ (codeA ++ codePrev))) := by
          rw [hE, append_assoc, nil_append]
        have h := ih hlen' hdrop' hE' hrest (hout [] codeA (forall_mem_nil _) fun f hf => by
            have := hA.results f hf
            omega) (by omega) (by omega) hwf
        refine h.cons ?_ (fun _ _ _ => rfl) (fun _ _ _ => rfl) ?_ (by omega) hhi hle'
        · rw [hconv]
          rfl
        · rw [hconv]
          exact ⟨hA, rfl⟩
      | some tc =>
        obtain ⟨ty, c⟩ := tc
        have hat : InsertsAt (some pre.length) (pre ++ [head]) :=
          ⟨by simp [insertPosition], by simp⟩
        have hE' : E.functions =
            (pre ++ [head]) ++ ((convPrev ++ codeR) ++ (codeA ++ codePrev)) := by
          rw [hE]
          simp
        have hpass : Passes (some pre.length) (pre ++ [head]) (convPrev ++ codeR)
            (argIndex + i) := by
          intro f hf
          simp only [getD_some, drop_left, mem_append, mem_singleton] at hf
          simp only [mem_cons, mem_append] at hres
          rcases hf with hf | hf | hf
          · have := hres f (.inl hf)
            omega
          · have := hres f (.inr (.inl hf))
            omega
          · have := hrest.results f (.inr hf)
            omega
        have hins := insertConverter_inserts ty c hat hE' hpass (fun f hf => by
            have := hres f (by simp [hf])
            omega) hA hwf (by omega) hhi
        obtain ⟨codeA', convA, hfun, harg⟩ := hins.laid
        have hnext := le_nextSlot (some c) a E.arguments.length
        have hlenE := hins.length
        have hE₁ : (insertConverter ty c (argIndex + i) (some pre.length) E).functions =
            pre ++ head :: ((convA ++ convPrev) ++ (codeR ++ (codeA' ++ codePrev))) := by
          rw [hfun]
          simp
        have hrest₁ := hrest.congr fun j hj => hins.kind j (by omega) (by omega)
        have hcodeA : ∀ f ∈ codeA', f.resultIndex = argIndex + i ∨ m ≤ f.resultIndex := by
          intro f hf
          rcases harg.cases with h | ⟨-, h⟩ | ⟨-, h⟩
          · have := h.results f hf
            omega
          · have := h.results f hf
            omega
          · rw [h] at hf
            cases hf
        have h := ih hlen' hdrop' hE₁ hrest₁ (hout convA codeA' harg.conv_results hcodeA)
          (by omega) (by omega) hins.wellFormed
        have hconv' : d.converter i = some c := hconv
        refine h.cons ?_ hins.kind hins.type ?_ (by omega) hhi hle'
        · rw [hconv', hlenE]
        · rw [hconv']
          exact harg

end Converters

/-! ## Trees -/

theorem vacant_of_kind (h : E.kind i = .temp) (hi : i < E.arguments.length) : Vacant E i := by
  obtain ⟨hbind, a, ha, hc⟩ := bindAt_of_kind_temp h hi
  exact ⟨bindAt_eq_none.mp hbind, a, ha, hc⟩

/-- The compiler has appended the segment of a tree. -/
structure Appends (L : Library Ty ε) (t : Tree Ty) (res : Nat) (g : Nat × Bool)
    (E E' : Compiled Ty ε) : Prop where
  laid : ∃ code, E'.functions = E.functions ++ code ∧
    Laid L E'.kind t res g E.arguments.length E'.arguments.length code
  wellFormed : WellFormed E'
  typeOf : t.typeOf L = some (E'.typeAt L.void res)
  kind : ∀ j, j < E.arguments.length → j ≠ res → E'.kind j = E.kind j
  type : ∀ j, j < E.arguments.length → j ≠ res → E'.typeAt L.void j = E.typeAt L.void j

/-- The compiler has appended the segments of arguments. -/
structure AppendsArgs (L : Library Ty ε) (name : Name) (argIndex : Nat) (g : Nat × Bool)
    (as : List (Tree Ty)) (i : Nat) (E E' : Compiled Ty ε) : Prop where
  laid : ∃ code, E'.functions = E.functions ++ code ∧
    ∀ (d : Description Ty ε) (k : Nat), d.converters = [] →
      LaidArgs L E'.kind name d argIndex g as i E.arguments.length E'.arguments.length k k code []
  wellFormed : WellFormed E'
  length : E.arguments.length ≤ E'.arguments.length
  typesOf : typesOf L as =
    some ((List.range' i as.length).map fun j => E'.typeAt L.void (argIndex + j))
  kind : ∀ j, j < E.arguments.length → (j < argIndex + i ∨ argIndex + i + as.length ≤ j) →
    E'.kind j = E.kind j
  type : ∀ j, j < E.arguments.length → (j < argIndex + i ∨ argIndex + i + as.length ≤ j) →
    E'.typeAt L.void j = E.typeAt L.void j

theorem typeAt_modify {f : Argument Ty → Argument Ty}
    {functions : List (CompiledFunction ε)} {contexts : List (Bind Ty × List Nat)} (void : Ty)
    (ha : arguments[i]? = some a) :
    Compiled.typeAt void ⟨functions, arguments.modify i f, contexts⟩ i = (f a).type := by
  simp [Compiled.typeAt, ha]

theorem kind_modify_type (ha : E.arguments[i]? = some a) (ty : Ty) (j : Nat) :
    ({ E with arguments := E.arguments.modify i fun a => { a with type := ty } } :
      Compiled Ty ε).kind j = E.kind j := by
  rw [kind_eq, kind_eq]
  by_cases hj : i = j
  · subst hj
    simp [constAt, ha]
  · simp [constAt, getElem?_modify_ne _ _ hj]

theorem WellFormed.modify_type (h : WellFormed E) (i : Nat) (ty : Ty) :
    WellFormed ({ E with arguments := E.arguments.modify i fun a => { a with type := ty } } :
      Compiled Ty ε) := by
  refine ⟨h.nodup, fun j hj => ?_⟩
  obtain ⟨a, ha, hc⟩ := h.isConst j hj
  by_cases hij : i = j
  · subst hij
    exact ⟨{ a with type := ty }, by simp [ha], hc⟩
  · exact ⟨a, by rw [getElem?_modify_ne _ _ hij, ha], hc⟩

section Reserve

variable {E : Compiled Ty ε} (void : Ty) (f : CompiledFunction ε) (n : Nat)

theorem length_reserve : (E.reserve void f n).arguments.length = E.arguments.length + n := by
  simp [Compiled.reserve]

theorem WellFormed.reserve (hwf : WellFormed E) : WellFormed (E.reserve void f n) :=
  hwf.congr rfl (fun h => Nat.lt_irrefl _ (hwf.lt h)) fun _ hj _ => getElem?_append_left hj

variable {j : Nat}

theorem WellFormed.vacant_reserve (hwf : WellFormed E) (h1 : E.arguments.length ≤ j)
    (h2 : j < E.arguments.length + n) : Vacant (E.reserve void f n) j := by
  refine ⟨fun hj => ?_, ⟨void, false, .null 0⟩, ?_, rfl⟩
  · have := hwf.lt hj
    omega
  · simp only [Compiled.reserve, getElem?_append_right h1, getElem?_replicate]
    rw [if_pos (by omega)]

end Reserve

section Trees

variable [DecidableEq Ty] {E E' : Compiled Ty ε} {res : Nat} {g : Nat × Bool}

theorem ref_appends (b : Bind Ty)
    (hE : internalCompile L (.ref b) res g.1 g.2 E = some E') (hwf : WellFormed E)
    (hvac : Vacant E res) : Appends L (.ref b) res g E E' := by
  rw [internalCompile, Option.some.injEq] at hE
  subst hE
  obtain ⟨r, hr, hconst⟩ := hvac.isConst
  have hbind := bindAt_addContext b hvac.notMem
  refine ⟨⟨[], by simp, ?_, by simp, rfl⟩, ⟨?_, fun j hj => ?_⟩, ?_, fun j hj hne => ?_,
    fun j hj hne => ?_⟩
  · rw [kind_eq, hbind, if_pos rfl]
  · exact (perm_slots_addContext b res E.contexts).nodup_iff.mpr
      (nodup_cons.mpr ⟨hvac.notMem, hwf.nodup⟩)
  · rcases mem_cons.mp ((perm_slots_addContext b res E.contexts).mem_iff.mp hj) with rfl | hj
    · exact ⟨{ r with type := b.type }, by simp [hr], hconst⟩
    · have hne : j ≠ res := fun h => hvac.notMem (h ▸ hj)
      simp only [getElem?_modify_ne _ _ hne.symm]
      exact hwf.isConst j hj
  · rw [Tree.typeOf, typeAt_modify _ hr]
  · exact kind_congr (by rw [hbind, if_neg hne]) (getElem?_modify_ne _ _ hne.symm)
  · exact typeAt_congr _ (getElem?_modify_ne _ _ hne.symm)

theorem const_appends (ty : Ty) (v : Value)
    (hE : internalCompile L (.const ty v) res g.1 g.2 E = some E') (hwf : WellFormed E)
    (hvac : Vacant E res) : Appends L (.const ty v) res g E E' := by
  rw [internalCompile, Option.some.injEq] at hE
  subst hE
  obtain ⟨r, hr, hconst⟩ := hvac.isConst
  refine ⟨⟨[], by simp, ?_, by simp, rfl⟩, hwf.congr rfl hvac.notMem fun j _ hne => ?_, ?_,
    fun j hj hne => ?_, fun j hj hne => ?_⟩
  · rw [kind_eq, bindAt_eq_none.mpr hvac.notMem]
    simp [constAt, hr]
  · exact getElem?_modify_ne _ _ hne.symm
  · rw [Tree.typeOf, typeAt_modify _ hr]
  · exact kind_congr rfl (getElem?_modify_ne _ _ hne.symm)
  · exact typeAt_congr _ (getElem?_modify_ne _ _ hne.symm)

/-- What is to be shown of a tree. -/
def Compiles (L : Library Ty ε) (t : Tree Ty) : Prop :=
  ∀ (res : Nat) (g : Nat × Bool) (E E' : Compiled Ty ε),
    internalCompile L t res g.1 g.2 E = some E' → WellFormed E → Vacant E res →
    Appends L t res g E E'

theorem args_append {as : List (Tree Ty)}
    (hall : ∀ a ∈ as, Compiles L a) : ∀ {i : Nat} {E E' : Compiled Ty ε},
      compileArgs L name argIndex g.1 g.2 as i E = some E' → WellFormed E →
      (∀ j, argIndex + i ≤ j → j < argIndex + i + as.length → Vacant E j) →
      argIndex + i + as.length ≤ E.arguments.length →
      AppendsArgs L name argIndex g as i E E' := by
  induction as with
  | nil =>
    intro i E E' hE hwf _ _
    rw [compileArgs, Option.some.injEq] at hE
    subst hE
    refine ⟨⟨[], by simp, fun d k _ => ?_⟩, hwf, Nat.le_refl _, rfl, fun _ _ _ => rfl,
      fun _ _ _ => rfl⟩
    exact ⟨rfl, rfl, rfl, rfl⟩
  | cons a as ih =>
    intro i E E' hE hwf hvac hlen
    have hcons : (a :: as).length = as.length + 1 := rfl
    obtain ⟨E₁, hE₁, hE'⟩ := bind_eq_some_iff.mp hE
    have hrest := ih (fun b hb => hall b (mem_cons_of_mem _ hb)) hE₁ hwf
      (fun j h1 h2 => hvac j (by omega) (by omega)) (by omega)
    have hlen₁ := hrest.length
    have hvac₁ : Vacant E₁ (argIndex + i) := by
      refine vacant_of_kind ?_ (by omega)
      rw [hrest.kind _ (by omega) (by omega)]
      exact (hvac _ (by omega) (by omega)).kind_eq
    have ha := hall a mem_cons_self _ (guard name argIndex i g.1 g.2) _ _ hE' hrest.wellFormed hvac₁
    obtain ⟨codeR, hfunR, hlaidR⟩ := hrest.laid
    obtain ⟨codeA, hfunA, hlaidA⟩ := ha.laid
    have hleA := hlaidA.le
    refine ⟨⟨codeR ++ codeA, ?_, fun d k hd => ?_⟩, ha.wellFormed, by omega, ?_,
      fun j hj hout => ?_, fun j hj hout => ?_⟩
    · rw [hfunA, hfunR, append_assoc]
    · have hnone : d.converter i = none := by simp [Description.converter, hd]
      rw [LaidArgs, hnone]
      refine ⟨E₁.arguments.length, codeA, codeR, [], [], ?_, ⟨hlaidA, rfl⟩, rfl, rfl⟩
      exact (hlaidR d k hd).congr fun j hj => ha.kind j (by omega) (by omega)
    · rw [typesOf, ha.typeOf, hrest.typesOf]
      simp only [length_cons, List.range'_succ, map_cons, bind_some,
        map_some, Option.some.injEq, List.cons.injEq, true_and]
      refine map_congr_left fun j hj => ?_
      have := mem_range'_1.mp hj
      exact (ha.type _ (by omega) (by omega)).symm
    · rw [ha.kind j (by omega) (by omega), hrest.kind j hj (by omega)]
    · rw [ha.type j (by omega) (by omega), hrest.type j hj (by omega)]

theorem call_appends (hall : ∀ a ∈ args, Compiles L a)
    (hE : internalCompile L (.call name args) res g.1 g.2 E = some E') (hwf : WellFormed E)
    (hvac : Vacant E res) : Appends L (.call name args) res g E E' := by
  rw [internalCompile] at hE
  dsimp only at hE
  obtain ⟨E₂, hE₂, hE'⟩ := bind_eq_some_iff.mp hE
  obtain ⟨d, hd, rfl⟩ := map_eq_some_iff.mp hE'
  have hlt := hvac.lt
  have hargs := args_append hall hE₂ (hwf.reserve _ _ _)
    (fun j h1 h2 => hwf.vacant_reserve _ _ _ (by omega) (by omega)) (by rw [length_reserve]; omega)
  have hlen₂ := hargs.length
  rw [length_reserve] at hlen₂
  obtain ⟨code, hfun, hlaid⟩ := hargs.laid
  -- the function is known once its arguments have types
  generalize hE₃ : ({ E₂ with functions := E₂.functions.modify E.functions.length fun f =>
    { f with function := d.function } } : Compiled Ty ε) = E₃
  have hargs₃ : E₃.arguments = E₂.arguments := by rw [← hE₃]
  have hkind₃ : E₃.kind = E₂.kind := by rw [← hE₃]; rfl
  have htype₃ : ∀ j, E₃.typeAt L.void j = E₂.typeAt L.void j :=
    fun j => typeAt_congr _ (by rw [hargs₃])
  have hfun₃ : E₃.functions = E.functions ++
      callAt name d.function E.arguments.length args.length res g.1 g.2 ::
        ([] ++ (code ++ [])) := by
    rw [← hE₃, hfun]
    simp only [Compiled.reserve, append_assoc, singleton_append, append_nil]
    rw [modify_append]
    rfl
  have hwf₃ : WellFormed E₃ := by
    rw [← hE₃]
    exact ⟨hargs.wellFormed.nodup, hargs.wellFormed.isConst⟩
  have hlaid₃ := hlaid { d with converters := [] } 0 rfl
  rw [length_reserve, ← hkind₃, ← hargs₃] at hlaid₃
  have hresults : ∀ f ∈ callAt name d.function E.arguments.length args.length res g.1 g.2 ::
      (([] : List (CompiledFunction ε)) ++ []), f.resultIndex < E.arguments.length + 0 ∨
        E.arguments.length + 0 + args.length ≤ f.resultIndex := by
    intro f hf
    obtain rfl := mem_singleton.mp hf
    exact .inl hlt
  have hdrop : d.converters.drop 0 = d.converters := rfl
  have hshort : d.converters.length ≤ args.length := by simpa using L.converters_le hd
  have hconv := insertConverters_converts rfl hshort hdrop hfun₃ hlaid₃ hresults (by omega)
    (Nat.le_refl _) hwf₃
  generalize insertConverters E.arguments.length E.functions.length d.converters 0 E₃ = E₄ at hconv
  obtain ⟨argCode, convCode, hfun₄, hlaid₄⟩ := hconv.laid
  have hlen₄ := hconv.length
  rw [hargs₃] at hlen₄ hlaid₄
  have hkind₄ : ∀ j, j < E.arguments.length → E₄.kind j = E.kind j := by
    intro j hj
    rw [hconv.kind j (by rw [hargs₃]; omega) (by omega), hkind₃,
      hargs.kind j (by rw [length_reserve]; omega) (by omega)]
    exact kind_congr rfl (getElem?_append_left hj)
  have htype₄ : ∀ j, j < E.arguments.length → E₄.typeAt L.void j = E.typeAt L.void j := by
    intro j hj
    rw [hconv.type j (by rw [hargs₃]; omega) (by omega), htype₃,
      hargs.type j (by rw [length_reserve]; omega) (by omega)]
    exact typeAt_congr _ (getElem?_append_left hj)
  obtain ⟨-, r, hr, hconst⟩ := bindAt_of_kind_temp ((hkind₄ res hlt).trans hvac.kind_eq) (by omega)
  -- the type of the result is set last
  have hkind₅ : ({ E₄ with arguments := E₄.arguments.modify res fun a =>
      { a with type := d.output } } : Compiled Ty ε).kind = E₄.kind :=
    funext fun j => kind_modify_type hr d.output j
  have hdescribe : describe L name args = some d := by
    rw [describe, hargs.typesOf, bind_some, ← range_eq_range', hd]
  refine ⟨⟨callAt name d.function E.arguments.length args.length res g.1 g.2 ::
    (convCode ++ argCode), ?_, ?_⟩, hconv.wellFormed.modify_type res d.output, ?_,
    fun j hj _ => ?_, fun j hj hne => ?_⟩
  · rw [hfun₄]
    simp
  · rw [hkind₅]
    refine ⟨(hkind₄ res hlt).trans hvac.kind_eq, d, E₂.arguments.length, argCode, convCode,
      hdescribe, ?_, rfl⟩
    rw [length_modify]
    exact hlaid₄
  · rw [Tree.typeOf, ← describe, hdescribe, typeAt_modify _ hr]
    rfl
  · rw [hkind₅, hkind₄ j hj]
  · rw [← htype₄ j hj]
    exact typeAt_congr _ (getElem?_modify_ne _ _ hne.symm)

/-- The compiler appends the segment of every tree. -/
theorem internalCompile_laid (L : Library Ty ε) (t : Tree Ty) : Compiles L t := by
  induction t using Tree.forall_of_args with
  | hr b => exact fun res g E E' hE hwf hvac => ref_appends b hE hwf hvac
  | hc ty v => exact fun res g E E' hE hwf hvac => const_appends ty v hE hwf hvac
  | hcall name args hall => exact fun res g E E' hE hwf hvac => call_appends hall hE hwf hvac

end Trees

end SciDB.Query.Expression
