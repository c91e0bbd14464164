import Mathlib

/-!
# Ordered maps

A map with finitely many keys is the list of its entries in increasing order of
the keys.  Two maps with the same value at every key are equal, so an equation
between maps is proved by looking up a key on both sides.  A cursor on a map is
the list of the entries from its position on.

Main results:

- Theorem {lit}`OrdMap.ext_get`: maps are determined by their values.
- Theorems {lit}`OrdMap.get_insert`, {lit}`OrdMap.get_erase` and
  {lit}`OrdMap.get_filter`: the values after an operation.
- Theorem {lit}`OrdMap.seek_eq_filter`: the entries from a key on.
- Theorem {lit}`lookup_merge`: looking up a key in the merge of two lists.
- Theorem {lit}`Sorted.takeWhile_lt`: the entries before a key.
- Theorem {lit}`Initial.comparable`: of two initial segments of one set of
  entries, one is a prefix of the other.
-/

namespace SciDB.OrderedMap

open List

variable {κ α β : Type*} {x : α}

/-! ## Looking up -/

section

variable [BEq κ] [LawfulBEq κ]

theorem lookup_cons_self (x : κ × α) (l : List (κ × α)) : (x :: l).lookup x.1 = some x.2 := by
  exact List.lookup_cons_self

variable {k : κ} {l : List (κ × α)}

theorem lookup_cons_of_ne {x : κ × α} (h : k ≠ x.1) : (x :: l).lookup k = l.lookup k := by
  rw [List.lookup, beq_false_of_ne h]

theorem mem_of_lookup (h : l.lookup k = some x) : (k, x) ∈ l := by
  rw [lookup_eq_some_iff] at h
  rcases h with ⟨before, after, rfl, -⟩
  simp

/-- A list of entries with different keys gives the value of each of them. -/
theorem lookup_of_nodup (h : (l.map Prod.fst).Nodup) (hx : (k, x) ∈ l) : l.lookup k = some x := by
  induction l with
  | nil => simp at hx
  | cons e l ih =>
    rw [map_cons, nodup_cons] at h
    rcases mem_cons.mp hx with rfl | hx
    · exact lookup_cons_self (k, x) l
    · have hne : k ≠ e.1 := by
        intro hk
        exact h.1 (hk ▸ mem_map_of_mem hx)
      rw [lookup_cons_of_ne hne, ih h.2 hx]

end

/-- Keep what passes a test, of what passes a weaker one. -/
theorem filter_of_imp {p q : κ → Bool} (h : ∀ k, p k → q k) (l : List (κ × α)) :
    (l.filter (fun e => q e.1)).filter (fun e => p e.1) = l.filter (fun e => p e.1) := by
  rw [filter_filter]
  exact filter_congr fun e _ => by simpa using h e.1

/-! ## Sorted lists of entries -/

variable [LinearOrder κ]

/-- The keys increase. -/
def Sorted (l : List (κ × α)) : Prop :=
  l.Pairwise (fun x y => x.1 < y.1)

/-- The key comes later. -/
def isAfter (k k' : κ) : Bool :=
  decide (k < k')

def isFrom (k k' : κ) : Bool :=
  decide (k ≤ k')

variable {k k' : κ} {l l' rest : List (κ × α)} {x : α} {e : κ × α}

@[simp]
theorem isAfter_iff : isAfter k k' = true ↔ k < k' :=
  decide_eq_true_iff

@[simp]
theorem isFrom_iff : isFrom k k' = true ↔ k ≤ k' :=
  decide_eq_true_iff

theorem lookup_eq_none_of_lt (h : ∀ e ∈ l, k < e.1) : l.lookup k = none := by
  rw [lookup_eq_none_iff]
  intro e he
  simpa using (h e he).ne

theorem Sorted.nodup (h : Sorted l) : (l.map Prod.fst).Nodup :=
  nodup_iff_pairwise_ne.mpr (pairwise_map.mpr (h.imp ne_of_lt))

theorem lookup_of_mem (h : Sorted l) (hx : (k, x) ∈ l) : l.lookup k = some x :=
  lookup_of_nodup h.nodup hx

theorem Sorted.eq_of_mem (h : Sorted l) {y : α} (hx : (k, x) ∈ l) (hy : (k, y) ∈ l) : x = y :=
  Option.some.inj ((lookup_of_mem h hx).symm.trans (lookup_of_mem h hy))

theorem Sorted.index_unique (h : Sorted l) {i j : Nat} {x y : κ × α} (hi : l[i]? = some x)
    (hj : l[j]? = some y) (hxy : x.1 = y.1) : i = j := by
  have hlt : i < (l.map Prod.fst).length := by
    rw [length_map]
    exact (List.getElem?_eq_some_iff.mp hi).1
  apply (List.getElem?_inj hlt h.nodup).mp
  rw [getElem?_map, getElem?_map, hi, hj, Option.map_some, Option.map_some, hxy]

theorem Sorted.sublist (h : Sorted l) (hsub : l'.Sublist l) : Sorted l' :=
  List.Pairwise.sublist hsub h

/-- Sorted lists are determined by their entries. -/
theorem Sorted.ext_mem (hl : Sorted l) (hl' : Sorted l') (h : ∀ e, e ∈ l ↔ e ∈ l') : l = l' := by
  exact List.Pairwise.eq_of_mem_iff hl hl' h

/-- Sorted lists are determined by the values they give. -/
theorem Sorted.ext_lookup (hl : Sorted l) (hl' : Sorted l') (h : ∀ k, l.lookup k = l'.lookup k) :
    l = l' := by
  apply hl.ext_mem hl'
  intro e
  constructor
  · intro he
    exact mem_of_lookup ((h e.1).symm.trans (lookup_of_mem hl he))
  · intro he
    exact mem_of_lookup ((h e.1).trans (lookup_of_mem hl' he))

/-- A test that passes on to smaller keys splits a sorted list. -/
theorem Sorted.span (h : Sorted l) {p : κ → Bool} (hp : ∀ {a b}, a < b → p b → p a) :
    l.takeWhile (fun e => p e.1) = l.filter (fun e => p e.1) ∧
      l.dropWhile (fun e => p e.1) = l.filter (fun e => !p e.1) := by
  induction l with
  | nil => exact ⟨rfl, rfl⟩
  | cons e l ih =>
    rw [Sorted, pairwise_cons] at h
    cases hk : p e.1 with
    | true => simpa [hk] using ih h.2
    | false =>
      have hrest : ∀ e' ∈ l, p e'.1 = false := fun e' he' =>
        Bool.eq_false_iff.mpr fun ht => Bool.eq_false_iff.mp hk (hp (h.1 e' he') ht)
      have hnil : l.filter (fun e => p e.1) = [] :=
        filter_eq_nil_iff.mpr fun e' he' => by simp [hrest e' he']
      have hall : l.filter (fun e => !p e.1) = l :=
        filter_eq_self.mpr fun e' he' => by simp [hrest e' he']
      simp [hk, hnil, hall]

theorem Sorted.takeWhile_lt (h : Sorted l) (k : κ) :
    l.takeWhile (fun e => decide (e.1 < k)) = l.filter (fun e => decide (e.1 < k)) :=
  (h.span (p := fun a => decide (a < k)) fun hlt hb =>
    decide_eq_true (hlt.trans (of_decide_eq_true hb))).1

theorem Sorted.dropWhile_lt (h : Sorted l) (k : κ) :
    l.dropWhile (fun e => decide (e.1 < k)) = l.filter (fun e => decide (k ≤ e.1)) :=
  (h.span (p := fun a => decide (a < k)) fun hlt hb =>
    decide_eq_true (hlt.trans (of_decide_eq_true hb))).2.trans
      (filter_congr fun e _ => by simp [← not_lt])

theorem Sorted.dropWhile_le (h : Sorted l) (k : κ) :
    l.dropWhile (fun e => decide (e.1 ≤ k)) = l.filter (fun e => decide (k < e.1)) :=
  (h.span (p := fun a => decide (a ≤ k)) fun hlt hb =>
    decide_eq_true (hlt.le.trans (of_decide_eq_true hb))).2.trans
      (filter_congr fun e _ => by simp [← not_le])

/-- What is behind a place in the list are the entries behind its key. -/
theorem Sorted.filter_isAfter (h : Sorted l) (hs : (e :: rest) <:+ l) :
    l.filter (fun x => isAfter e.1 x.1) = rest := by
  rcases hs with ⟨before, rfl⟩
  rw [Sorted, pairwise_append] at h
  have hbefore : before.filter (fun x => isAfter e.1 x.1) = [] := by
    rw [filter_eq_nil_iff]
    intro x hx
    simpa using (h.2.2 x hx e mem_cons_self).le
  rw [filter_append, hbefore, nil_append, filter_cons_of_neg (by simp), filter_eq_self]
  intro x hx
  simpa using (pairwise_cons.mp h.2.1).1 x hx

theorem isFrom_of_isAfter (k k' : κ) (h : isAfter k k') : isFrom k k' :=
  isFrom_iff.mpr (isAfter_iff.mp h).le

theorem Sorted.head_le (h : Sorted (e :: l)) : ∀ f ∈ e :: l, e.1 ≤ f.1 :=
  forall_mem_cons.mpr ⟨le_rfl, fun f hf => ((pairwise_cons.mp h).1 f hf).le⟩

/-- A list that starts at a key. -/
theorem Sorted.eq_cons (h : Sorted l) (hx : l.lookup k = some x) (hle : ∀ e ∈ l, k ≤ e.1) :
    l = (k, x) :: l.filter (fun e => decide (k < e.1)) := by
  cases l with
  | nil => cases hx
  | cons e l =>
    rcases mem_cons.mp (mem_of_lookup hx) with rfl | hmem
    · exact congrArg _ (h.filter_isAfter suffix_rfl).symm
    · have hlt := (pairwise_cons.mp h).1 _ hmem
      exact absurd (hle e mem_cons_self) hlt.not_ge

/-- The entries from a key of the list on. -/
theorem Sorted.filter_of_lookup (h : Sorted l) (hx : l.lookup k = some x) :
    l.filter (fun e => isFrom k e.1) = (k, x) :: l.filter (fun e => isAfter k e.1) := by
  have hsorted : Sorted (l.filter fun e => isFrom k e.1) := h.sublist filter_sublist
  rw [← filter_of_imp (isFrom_of_isAfter k)]
  refine hsorted.eq_cons (lookup_of_mem hsorted ?_) fun e he => isFrom_iff.mp (mem_filter.mp he).2
  exact mem_filter.mpr ⟨mem_of_lookup hx, isFrom_iff.mpr le_rfl⟩

theorem Sorted.filter_isFrom (h : Sorted l) (hs : (e :: rest) <:+ l) :
    l.filter (fun x => isFrom e.1 x.1) = e :: rest := by
  rw [h.filter_of_lookup (lookup_of_mem h (hs.mem mem_cons_self)), h.filter_isAfter hs]

/-- The entry behind one of the entries. -/
theorem Sorted.find?_gt (h : Sorted l) (hs : (e :: rest) <:+ l) :
    l.find? (fun x => decide (e.1 < x.1)) = rest.head? := by
  rw [← head?_filter]
  exact congrArg head? (h.filter_isAfter hs)

/-- The merge of two lists; the second one takes precedence. -/
def merge : List (κ × α) → List (κ × α) → List (κ × α)
  | [], b => b
  | x :: a, [] => x :: a
  | x :: a, y :: b =>
    if x.1 < y.1 then x :: merge a (y :: b)
    else if y.1 < x.1 then y :: merge (x :: a) b
    else y :: merge a b
termination_by a b => a.length + b.length

section

variable {a b : List (κ × α)}

theorem merge_nil : merge a [] = a := by
  cases a <;> rw [merge]

theorem mem_merge (h : e ∈ merge a b) : e ∈ a ∨ e ∈ b := by
  fun_induction merge a b with
  | case1 b => exact .inr h
  | case2 x a => exact .inl h
  | case3 x a y b hlt ih => grind
  | case4 x a y b hge hlt ih => grind
  | case5 x a y b hge hle ih => grind

/-- The merge has increasing keys. -/
theorem sorted_merge (ha : Sorted a) (hb : Sorted b) : Sorted (merge a b) := by
  fun_induction merge a b with
  | case1 b => exact hb
  | case2 x a => exact ha
  | case3 x a y b hlt ih =>
    rw [Sorted, pairwise_cons] at ha
    refine pairwise_cons.mpr ⟨?_, ih ha.2 hb⟩
    intro e he
    rcases mem_merge he with he | he
    · exact ha.1 e he
    · exact hlt.trans_le (hb.head_le e he)
  | case4 x a y b hge hlt ih =>
    rw [Sorted, pairwise_cons] at hb
    refine pairwise_cons.mpr ⟨?_, ih ha hb.2⟩
    intro e he
    rcases mem_merge he with he | he
    · exact hlt.trans_le (ha.head_le e he)
    · exact hb.1 e he
  | case5 x a y b hge hle ih =>
    rw [Sorted, pairwise_cons] at ha hb
    refine pairwise_cons.mpr ⟨?_, ih ha.2 hb.2⟩
    have heq : x.1 = y.1 := le_antisymm (not_lt.mp hle) (not_lt.mp hge)
    intro e he
    rcases mem_merge he with he | he
    · exact heq ▸ ha.1 e he
    · exact hb.1 e he

/-- Looking up a key in the merge. -/
theorem lookup_merge (ha : Sorted a) (hb : Sorted b) (k : κ) :
    (merge a b).lookup k = (b.lookup k).or (a.lookup k) := by
  fun_induction merge a b with
  | case1 b => simp
  | case2 x a => simp
  | case3 x a y b hlt ih =>
    rw [Sorted, pairwise_cons] at ha
    by_cases hk : k = x.1
    · -- the second list starts behind the key
      have hnone : (y :: b).lookup k = none :=
        lookup_eq_none_of_lt fun e he => hk ▸ hlt.trans_le (hb.head_le e he)
      rw [hnone, hk, lookup_cons_self, lookup_cons_self]
      rfl
    · rw [lookup_cons_of_ne hk, lookup_cons_of_ne hk, ih ha.2 hb]
  | case4 x a y b hge hlt ih =>
    rw [Sorted, pairwise_cons] at hb
    by_cases hk : k = y.1
    · rw [hk, lookup_cons_self, lookup_cons_self]
      rfl
    · rw [lookup_cons_of_ne hk, ih ha hb.2, lookup_cons_of_ne hk]
  | case5 x a y b hge hle ih =>
    rw [Sorted, pairwise_cons] at ha hb
    have heq : x.1 = y.1 := le_antisymm (not_lt.mp hle) (not_lt.mp hge)
    by_cases hk : k = y.1
    · rw [hk, lookup_cons_self, lookup_cons_self]
      rfl
    · rw [lookup_cons_of_ne hk, ih ha.2 hb.2, lookup_cons_of_ne hk, lookup_cons_of_ne (heq ▸ hk)]

end

/-- Put an entry in its place. -/
def put (k : κ) (x : α) : List (κ × α) → List (κ × α)
  | [] => [(k, x)]
  | e :: l =>
    if k < e.1 then (k, x) :: e :: l
    else if e.1 < k then e :: put k x l
    else (k, x) :: l

theorem put_eq_merge (k : κ) (x : α) (l : List (κ × α)) : put k x l = merge l [(k, x)] := by
  fun_induction put k x l with
  | case1 => rw [merge]
  | case2 e l hlt => rw [merge, if_neg hlt.not_gt, if_pos hlt, merge_nil]
  | case3 e l hge hlt ih => rw [merge, if_pos hlt, ih]
  | case4 e l hge hle => rw [merge, if_neg hle, if_neg hge, merge_nil]

theorem mem_put (h : e ∈ put k x l) : e = (k, x) ∨ e ∈ l := by
  rw [put_eq_merge] at h
  exact (mem_merge h).symm.imp_left mem_singleton.mp

theorem Sorted.put (h : Sorted l) : Sorted (put k x l) := by
  rw [put_eq_merge]
  exact sorted_merge h (pairwise_singleton _ _)

theorem lookup_put (h : Sorted l) (k' : κ) :
    (put k x l).lookup k' = if k' = k then some x else l.lookup k' := by
  rw [put_eq_merge, lookup_merge h (pairwise_singleton _ _)]
  by_cases hk : k' = k
  · rw [if_pos hk, hk, lookup_cons_self (k, x)]
    rfl
  · rw [if_neg hk, lookup_cons_of_ne hk]
    rfl

theorem lookup_filter (h : Sorted l) (p : κ → Bool) (k : κ) :
    (l.filter (fun e => p e.1)).lookup k = if p k then l.lookup k else none := by
  by_cases hp : p k
  · rw [if_pos hp]
    cases hl : l.lookup k with
    | none =>
      rw [lookup_eq_none_iff] at hl ⊢
      exact fun e he => hl e (mem_of_mem_filter he)
    | some x =>
      apply lookup_of_mem (h.sublist filter_sublist)
      exact mem_filter.mpr ⟨mem_of_lookup hl, hp⟩
  · rw [if_neg hp, lookup_eq_none_iff]
    intro e he
    have hne : k ≠ e.1 := by
      intro hk
      exact hp (hk ▸ (mem_filter.mp he).2)
    simpa using hne

/-- An entry after all those of a list can be put behind it. -/
theorem Sorted.append_put (h : Sorted (l ++ l')) (hk : ∀ e ∈ l, e.1 < k) :
    Sorted (l ++ OrderedMap.put k x l') := by
  rcases pairwise_append.mp h with ⟨hl, hl', hll'⟩
  refine pairwise_append.mpr ⟨hl, Sorted.put hl', ?_⟩
  intro e he e' he'
  rcases mem_put he' with rfl | he'
  · exact hk e he
  · exact hll' e he e' he'

/-! ## Initial segments -/

/-- A list holds, in increasing order, the entries of a set up to some key. -/
structure Initial (U : Set (κ × α)) (l : List (κ × α)) : Prop where
  sorted : Sorted l
  subset : ∀ e ∈ l, e ∈ U
  closed : ∀ e ∈ U, ∀ e' ∈ l, e.1 ≤ e'.1 → e ∈ l

namespace Initial

variable {U : Set (κ × α)} {l l' : List (κ × α)} {e e' : κ × α}

theorem tail (h : Initial U (e :: l)) : Initial {x ∈ U | e.1 < x.1} l where
  sorted := (pairwise_cons.mp h.sorted).2
  subset := fun x hx =>
    ⟨h.subset x (mem_cons_of_mem e hx), (pairwise_cons.mp h.sorted).1 x hx⟩
  closed := by
    rintro x ⟨hx, hlt⟩ y hy hle
    rcases mem_cons.mp (h.closed x hx y (mem_cons_of_mem e hy) hle) with rfl | hmem
    · exact absurd hlt (lt_irrefl _)
    · exact hmem

theorem head_eq_of_le (h : Initial U (e :: l)) (h' : Initial U (e' :: l')) (hle : e.1 ≤ e'.1) :
    e = e' := by
  have hmem := h'.closed e (h.subset e mem_cons_self) e' mem_cons_self hle
  rcases mem_cons.mp hmem with heq | hmem
  · exact heq
  · exact absurd ((pairwise_cons.mp h'.sorted).1 e hmem) (not_lt.mpr hle)

/-- Of two initial segments one is a prefix of the other. -/
theorem comparable (h : Initial U l) (h' : Initial U l') : l <+: l' ∨ l' <+: l := by
  induction l generalizing U l' with
  | nil => exact .inl nil_prefix
  | cons e l ih =>
    cases l' with
    | nil => exact .inr nil_prefix
    | cons e' l' =>
      have heq : e = e' := by
        rcases le_total e.1 e'.1 with hle | hle
        · exact head_eq_of_le h h' hle
        · exact (head_eq_of_le h' h hle).symm
      subst heq
      rcases ih h.tail h'.tail with hp | hp
      · exact .inl (prefix_cons_inj e |>.mpr hp)
      · exact .inr (prefix_cons_inj e |>.mpr hp)

end Initial

/-! ## Maps -/

/-- A map with finitely many keys. -/
structure OrdMap (κ α : Type*) [LinearOrder κ] where
  entries : List (κ × α)
  sorted : Sorted entries

namespace OrdMap

variable {m m' : OrdMap κ α} {k k' : κ} {x : α}

variable (m)

/-- The value of a key. -/
def get (k : κ) : Option α :=
  m.entries.lookup k

def empty : OrdMap κ α :=
  ⟨[], List.Pairwise.nil⟩

/-- Give a key a value, in place of the one it has. -/
def insert (k : κ) (x : α) : OrdMap κ α :=
  ⟨put k x m.entries, m.sorted.put⟩

/-- Keep the keys with a property. -/
def filter (p : κ → Bool) : OrdMap κ α :=
  ⟨m.entries.filter (fun e => p e.1), m.sorted.sublist filter_sublist⟩

def erase (k : κ) : OrdMap κ α :=
  m.filter (fun k' => decide (k' ≠ k))

/-- Change the values. -/
def map (f : α → β) : OrdMap κ β where
  entries := m.entries.map (Prod.map id f)
  sorted := pairwise_map.mpr m.sorted

/-- The entries from a key on. -/
def seek (k : κ) : List (κ × α) :=
  m.entries.dropWhile (fun e => decide (e.1 < k))

/-- Drop the first keys, as long as they have a property. -/
def dropWhile (p : κ → Bool) : OrdMap κ α :=
  ⟨m.entries.dropWhile (fun e => p e.1), m.sorted.sublist (dropWhile_sublist _)⟩

def size : Nat :=
  m.entries.length

variable {m}

theorem mem_entries : (k, x) ∈ m.entries ↔ m.get k = some x :=
  ⟨lookup_of_mem m.sorted, mem_of_lookup⟩

/-- Maps are determined by their values. -/
theorem ext_get (h : ∀ k, m.get k = m'.get k) : m = m' := by
  cases m with
  | mk l hl =>
    cases m' with
    | mk l' hl' =>
      congr
      exact hl.ext_lookup hl' h

@[simp]
theorem get_empty (k : κ) : (empty : OrdMap κ α).get k = none :=
  rfl

theorem get_insert (k' : κ) : (m.insert k x).get k' = if k' = k then some x else m.get k' :=
  lookup_put m.sorted k'

variable {e : κ × α} {p : κ → Bool} {rest : List (κ × α)}

/-- A new key adds an entry and leaves the others. -/
theorem mem_insert_of_none (h : m.get k = none) :
    e ∈ (m.insert k x).entries ↔ e = (k, x) ∨ e ∈ m.entries := by
  rcases e with ⟨k', y⟩
  rw [mem_entries, mem_entries, get_insert]
  by_cases hk : k' = k
  · simp [hk, h, eq_comm]
  · simp [hk]

theorem get_filter (p : κ → Bool) (k : κ) : (m.filter p).get k = if p k then m.get k else none :=
  lookup_filter m.sorted p k

/-- A map whose keys are among those of another one, and not fewer, has all of them. -/
theorem exists_get_of_size_le (hsub : ∀ k y, m.get k = some y → ∃ z, m'.get k = some z)
    (hsize : m'.size ≤ m.size) (hk : m'.get k = some x) : ∃ y, m.get k = some y := by
  have hkeys : m.entries.map Prod.fst ⊆ m'.entries.map Prod.fst := by
    intro j hj
    rcases mem_map.mp hj with ⟨⟨j, y⟩, he, rfl⟩
    rcases hsub j y (mem_entries.mp he) with ⟨z, hz⟩
    exact mem_map.mpr ⟨(j, z), mem_entries.mpr hz, rfl⟩
  have hperm : (m.entries.map Prod.fst).Perm (m'.entries.map Prod.fst) :=
    (m.sorted.nodup.subperm hkeys).perm_of_length_le (by simpa [size] using hsize)
  have hmem : k ∈ m.entries.map Prod.fst :=
    hperm.mem_iff.mpr (mem_map_of_mem (mem_entries.mpr hk))
  rcases mem_map.mp hmem with ⟨⟨k, y⟩, he, rfl⟩
  exact ⟨y, mem_entries.mp he⟩

theorem get_erase (k' : κ) : (m.erase k).get k' = if k' = k then none else m.get k' := by
  rw [erase, get_filter]
  simp

variable (f : α → β)

theorem get_map (k : κ) : (m.map f).get k = (m.get k).map f := by
  cases hg : m.get k with
  | some x => exact mem_entries.mp (mem_map_of_mem (mem_entries.mpr hg))
  | none =>
    cases hf : (m.map f).get k with
    | none => rfl
    | some y =>
      rcases mem_map.mp (mem_entries.mpr hf) with ⟨⟨k', x⟩, he, hey⟩
      have hk : k' = k := congrArg Prod.fst hey
      rw [hk, mem_entries, hg] at he
      cases he

theorem map_insert : (m.insert k x).map f = (m.map f).insert k (f x) := by
  apply ext_get
  intro k'
  rw [get_map, get_insert, get_insert, get_map]
  split <;> rfl

theorem map_filter (p : κ → Bool) : (m.filter p).map f = (m.map f).filter p := by
  apply ext_get
  intro k'
  rw [get_map, get_filter, get_filter, get_map]
  split <;> rfl

theorem map_erase : (m.erase k).map f = (m.map f).erase k :=
  map_filter f _

theorem filter_insert_of_pos (h : p k) : (m.insert k x).filter p = (m.filter p).insert k x := by
  apply ext_get
  intro k'
  rw [get_filter, get_insert, get_insert, get_filter]
  by_cases hk : k' = k
  · simp [hk, h]
  · simp [hk]

theorem filter_insert_of_neg (h : ¬p k) : (m.insert k x).filter p = m.filter p := by
  apply ext_get
  intro k'
  rw [get_filter, get_insert, get_filter]
  by_cases hk : k' = k
  · simp [hk, h]
  · simp [hk]

theorem filter_comm (p q : κ → Bool) : (m.filter p).filter q = (m.filter q).filter p := by
  apply ext_get
  intro k'
  rw [get_filter, get_filter, get_filter, get_filter]
  split <;> split <;> rfl

/-- A filter that keeps all keys of the map. -/
theorem filter_eq_self (h : ∀ e ∈ m.entries, p e.1) : m.filter p = m := by
  apply ext_get
  intro k'
  rw [get_filter]
  cases hg : m.get k' with
  | none => split <;> rfl
  | some x => rw [if_pos (h _ (mem_entries.mpr hg))]

theorem seek_map (k : κ) : (m.map f).seek k = (m.seek k).map (Prod.map id f) := by
  rw [seek, map, dropWhile_map]
  rfl

theorem seek_eq_filter (k : κ) : m.seek k = m.entries.filter (fun e => decide (k ≤ e.1)) :=
  m.sorted.dropWhile_lt k

theorem seek_suffix (k : κ) : m.seek k <:+ m.entries :=
  dropWhile_suffix _

theorem get_of_suffix (h : (e :: rest) <:+ m.entries) : m.get e.1 = some e.2 :=
  mem_entries.mp (h.mem mem_cons_self)

theorem sorted_seek (k : κ) : Sorted (m.seek k) :=
  m.sorted.sublist (dropWhile_sublist _)

theorem mem_seek : e ∈ m.seek k ↔ e ∈ m.entries ∧ k ≤ e.1 := by
  rw [seek_eq_filter, mem_filter, decide_eq_true_iff]

/-- The first entry from a key on is the least one. -/
theorem head?_seek : (m.seek k).head? = some e ↔
    (e ∈ m.entries ∧ k ≤ e.1) ∧ ∀ x ∈ m.entries, k ≤ x.1 → e.1 ≤ x.1 := by
  have hsorted := m.sorted_seek k
  constructor
  · intro h
    rcases head?_eq_some_iff.mp h with ⟨rest, hseek⟩
    refine ⟨mem_seek.mp (hseek ▸ mem_cons_self), fun x hx hle => ?_⟩
    exact (hseek ▸ hsorted).head_le x (hseek ▸ mem_seek.mpr ⟨hx, hle⟩)
  · rintro ⟨he, hleast⟩
    rw [hsorted.eq_cons (lookup_of_mem hsorted (mem_seek.mpr he)) fun x hx =>
      hleast x (mem_seek.mp hx).1 (mem_seek.mp hx).2]
    rfl

theorem seek_cons (h : m.seek k = e :: rest) :
    (e ∈ m.entries ∧ k ≤ e.1) ∧ ∀ x ∈ m.entries, k ≤ x.1 → e.1 ≤ x.1 :=
  head?_seek.mp (congrArg head? h)

/-- The entries from a key on start with its own, if it has one. -/
theorem get_of_seek (h : m.seek k = e :: rest) : m.get k = if k = e.1 then some e.2 else none := by
  rcases seek_cons h with ⟨he, hleast⟩
  by_cases hk : k = e.1
  · rw [if_pos hk, hk]
    exact mem_entries.mp he.1
  · rw [if_neg hk]
    by_contra hg
    rcases Option.ne_none_iff_exists'.mp hg with ⟨x, hx⟩
    exact hk (le_antisymm he.2 (hleast (k, x) (mem_entries.mpr hx) le_rfl))

/-- The entries behind a key are among those from it on. -/
theorem filter_gt_seek (k : κ) :
    (m.seek k).filter (fun x => decide (k < x.1)) =
      m.entries.filter (fun x => decide (k < x.1)) := by
  rw [seek_eq_filter]
  exact filter_of_imp (isFrom_of_isAfter k) m.entries

/-- The entries behind a key are those from it on, without its own. -/
theorem filter_gt_of_seek (h : m.seek k = e :: rest) :
    m.entries.filter (fun x => decide (k < x.1)) = if k = e.1 then rest else e :: rest := by
  have hsorted := h ▸ m.sorted_seek k
  rw [← filter_gt_seek, h]
  by_cases hk : k = e.1
  · rw [if_pos hk, hk]
    exact hsorted.filter_isAfter suffix_rfl
  · rw [if_neg hk, List.filter_eq_self]
    rcases seek_cons h with ⟨he, hleast⟩
    intro x hx
    have hx' := (mem_seek.mp (h ▸ hx))
    simpa using (lt_of_le_of_ne he.2 hk).trans_le (hleast x hx'.1 hx'.2)

theorem seek_of_get (h : m.get k = some x) :
    m.seek k = (k, x) :: m.entries.filter (fun e => decide (k < e.1)) := by
  rw [seek_eq_filter]
  exact m.sorted.filter_of_lookup h

theorem get_foldl_erase (ks : List κ) (k : κ) :
    (ks.foldl erase m).get k = if k ∈ ks then none else m.get k := by
  induction ks generalizing m with
  | nil => simp
  | cons k' ks ih =>
    rw [foldl_cons, ih, get_erase]
    by_cases hk : k = k'
    · simp [hk]
    · simp [hk]

theorem get_foldl_insert_of_sorted {l : List (κ × α)} (h : Sorted l) (m : OrdMap κ α) (k : κ) :
    (l.foldl (fun m e => m.insert e.1 e.2) m).get k = (l.lookup k).or (m.get k) := by
  induction l generalizing m with
  | nil => rfl
  | cons e l ih =>
    rw [Sorted, pairwise_cons] at h
    rw [foldl_cons, ih h.2, get_insert]
    by_cases hk : k = e.1
    · subst hk
      rw [if_pos rfl, lookup_cons_self, lookup_eq_none_of_lt h.1]
      rfl
    · rw [if_neg hk, lookup_cons_of_ne hk]

end OrdMap
end SciDB.OrderedMap
