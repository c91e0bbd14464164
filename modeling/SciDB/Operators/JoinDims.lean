import SciDB.Lib.Updates
import SciDB.Operators.SubArray

/-!
# The dimensions of a cross join

`PhysicalCrossJoin::execute` turns the pairs of joined dimensions into two vectors:
`rjd` has for a dimension of the right array the one of the left array it is joined
with, `ljd` has for a dimension of the left array its place in the hash key.  The key
lists the joined coordinates in the order of the right array.  `CrossJoinArray`
(`src/query/ops/cross_join/CrossJoinArray.cpp`) takes positions apart and puts them
together with them.

Main results:

- Theorem {lit}`Pairing.decomposeLeftCoordinates_eq`: the key of a left position, whatever the
  key held before.
- Theorem {lit}`Pairing.matchPosition_iff`: positions match if they have the same key.
- Theorem {lit}`Pairing.getPosition_lt`: right positions that match one left position are
  ordered by their other coordinates.
- Theorem {lit}`Pairing.eq_of_getPosition`: the right position can be found from the output
  position.
-/

namespace SciDB.Operators.CrossJoin

open Updates List

/-! ## The pairs -/

/-- The joined dimensions.  `LogicalCrossJoin::inferSchema` refuses a dimension that is
named twice. -/
structure Pairing (nLeftDims nRightDims : Nat) where
  pairs : List (Nat × Nat)
  left_lt : ∀ p ∈ pairs, p.1 < nLeftDims
  right_lt : ∀ p ∈ pairs, p.2 < nRightDims
  left_nodup : (pairs.map Prod.fst).Nodup
  right_nodup : (pairs.map Prod.snd).Nodup

section Vectors

variable {nLeftDims nRightDims : Nat} (P : Pairing nLeftDims nRightDims)

/-- The first loop of `execute`; -1 is `none`. -/
def Pairing.rjd : List (Option Nat) :=
  P.pairs.foldl (fun rjd p => rjd.set p.2 (some p.1)) (List.replicate nRightDims none)

/-- A turn of the second loop of `execute`. -/
def placeKey (s : List (Option Nat) × Nat) (l : Option Nat) : List (Option Nat) × Nat :=
  match l with
  | some l => (s.1.set l (some s.2), s.2 + 1)
  | none => s

/-- The second loop of `execute`. -/
def Pairing.ljd : List (Option Nat) :=
  (P.rjd.foldl placeKey (List.replicate nLeftDims none, 0)).1

end Vectors

/-! ## Positions -/

variable (ljd : List (Option Nat)) {α β : Type} {xs : List α} {x : Int}

/-- The number of joined dimensions, which the constructor of the array counts. -/
def nJoinDims : Nat :=
  ljd.countP Option.isSome

def matchPosition (left : Coordinates) : List (Option Nat) → Coordinates → Bool
  | some l :: rjd, x :: right => if left.getD l 0 ≠ x then false else matchPosition left rjd right
  | none :: rjd, _ :: right => matchPosition left rjd right
  | _, _ => true

/-- The hash key and the leftover of a right position. -/
def decomposeRightCoordinates : List (Option Nat) → Coordinates → Coordinates × Coordinates
  | some _ :: rjd, x :: right =>
    let (hashKey, rightLeftover) := decomposeRightCoordinates rjd right
    (x :: hashKey, rightLeftover)
  | none :: rjd, x :: right =>
    let (hashKey, rightLeftover) := decomposeRightCoordinates rjd right
    (hashKey, x :: rightLeftover)
  | _, _ => ([], [])

/-- The loop of `decomposeLeftCoordinates` and `decomposeOutCoordinates` that stores
the coordinates of a left position in the key. -/
def fillKey (left hashKey : Coordinates) : Coordinates :=
  (ljd.zip left).foldl (fun hashKey e =>
    match e.1 with
    | some k => hashKey.set k e.2
    | none => hashKey) hashKey

def decomposeLeftCoordinates (left hashKey : Coordinates) : Coordinates :=
  fillKey ljd left hashKey

/-- The left position, the key and the leftover of an output position. -/
def decomposeOutCoordinates (out hashKey : Coordinates) :
    Coordinates × Coordinates × Coordinates :=
  (out.take ljd.length, fillKey ljd out hashKey, out.drop ljd.length)

def composeOutCoordinates (left rightLeftover : Coordinates) : Coordinates :=
  left ++ rightLeftover

def getLeftPosition (pos : Coordinates) : Coordinates :=
  pos.take ljd.length

/-- The loop of `getRightPosition`; `leftover` are the coordinates from `pos[i]` on. -/
def rightPosition (pos : Coordinates) : List (Option Nat) → Coordinates → Coordinates
  | some l :: rjd, leftover => pos.getD l 0 :: rightPosition pos rjd leftover
  | none :: rjd, leftover => leftover.headD 0 :: rightPosition pos rjd leftover.tail
  | [], _ => []

def getRightPosition (ljd rjd : List (Option Nat)) (pos : Coordinates) : Coordinates :=
  rightPosition pos rjd (pos.drop ljd.length)

/-- The coordinates of a right position that are not joined: the second loop of
`getPosition`. -/
def unjoined {α : Type} : List (Option Nat) → List α → List α
  | some _ :: rjd, _ :: right => unjoined rjd right
  | none :: rjd, x :: right => x :: unjoined rjd right
  | _, _ => []

def getPosition (rjd : List (Option Nat)) (left right : Coordinates) : Coordinates :=
  left ++ unjoined rjd right

/-! ## The two vectors -/

section Vectors

variable {nLeftDims nRightDims : Nat} (P : Pairing nLeftDims nRightDims)

/-- The joined dimensions of the left array in the order of the key. -/
def Pairing.joinDims : List Nat :=
  P.rjd.reduceOption

theorem Pairing.rjd_eq :
    P.rjd = writeAll (P.pairs.map fun p => (p.2, some p.1)) (List.replicate nRightDims none) := by
  rw [writeAll, foldl_map]
  rfl

@[simp]
theorem Pairing.length_rjd : P.rjd.length = nRightDims := by
  rw [rjd_eq, length_writeAll, length_replicate]

variable {l k : Nat} {left hashKey : Coordinates}

theorem Pairing.getElem?_rjd {r : Nat} : P.rjd[r]? = some (some l) ↔ (l, r) ∈ P.pairs := by
  have hnodup : ((P.pairs.map fun p => (p.2, some p.1)).map Prod.fst).Nodup := by
    rw [map_map]
    exact P.right_nodup
  rw [rjd_eq, getElem?_writeAll_replicate hnodup (Option.some_ne_none l)]
  constructor
  · rintro ⟨-, hmem⟩
    rcases mem_map.mp hmem with ⟨p, hp, heq⟩
    rw [Prod.mk.injEq, Option.some.injEq] at heq
    rwa [← heq.1, ← heq.2]
  · intro hmem
    exact ⟨P.right_lt _ hmem, mem_map.mpr ⟨_, hmem, rfl⟩⟩

theorem Pairing.mem_joinDims : l ∈ P.joinDims ↔ l ∈ P.pairs.map Prod.fst := by
  rw [joinDims, reduceOption_mem_iff, mem_iff_getElem?]
  constructor
  · rintro ⟨r, hr⟩
    exact mem_map.mpr ⟨_, P.getElem?_rjd.mp hr, rfl⟩
  · intro h
    rcases mem_map.mp h with ⟨p, hp, rfl⟩
    exact ⟨p.2, P.getElem?_rjd.mpr hp⟩

theorem Pairing.joinDims_lt (h : l ∈ P.joinDims) : l < nLeftDims := by
  rcases mem_map.mp (P.mem_joinDims.mp h) with ⟨p, hp, rfl⟩
  exact P.left_lt p hp

/-- A vector that has each number at one place only. -/
theorem reduceOption_nodup {v : List (Option Nat)}
    (h : ∀ i j x : Nat, v[i]? = some (some x) → v[j]? = some (some x) → i = j) :
    v.reduceOption.Nodup := by
  rw [List.reduceOption, nodup_iff_pairwise_ne, pairwise_filterMap, pairwise_iff_getElem]
  rintro i j hi hj hij x hx y hy rfl
  have heq := h i j x (by rw [getElem?_eq_getElem, ← hx]; rfl)
    (by rw [getElem?_eq_getElem, ← hy]; rfl)
  omega

/-- No left dimension is joined twice. -/
theorem Pairing.joinDims_nodup : P.joinDims.Nodup := by
  apply reduceOption_nodup
  intro i j l hi hj
  have hpair := inj_on_of_nodup_map P.left_nodup (P.getElem?_rjd.mp hi) (P.getElem?_rjd.mp hj) rfl
  exact congrArg Prod.snd hpair

/-- The second loop of `execute` numbers the joined dimensions. -/
theorem foldl_placeKey (rjd ljd : List (Option Nat)) (k : Nat) :
    (rjd.foldl placeKey (ljd, k)).1 =
      writeAll ((rjd.reduceOption.zipIdx k).map fun e => (e.1, some e.2)) ljd := by
  induction rjd generalizing ljd k with
  | nil => rfl
  | cons l rjd ih =>
    cases l with
    | none =>
      exact ih ljd k
    | some l =>
      exact ih (ljd.set l (some k)) (k + 1)

theorem Pairing.ljd_eq :
    P.ljd = writeAll (P.joinDims.zipIdx.map fun e => (e.1, some e.2))
      (List.replicate nLeftDims none) :=
  foldl_placeKey _ _ _

@[simp]
theorem Pairing.length_ljd : P.ljd.length = nLeftDims := by
  rw [ljd_eq, length_writeAll, length_replicate]

theorem Pairing.getElem?_ljd : P.ljd[l]? = some (some k) ↔ P.joinDims[k]? = some l := by
  have hnodup : ((P.joinDims.zipIdx.map fun e => (e.1, some e.2)).map Prod.fst).Nodup := by
    rw [map_map]
    show (P.joinDims.zipIdx.map Prod.fst).Nodup
    rw [zipIdx_map_fst]
    exact P.joinDims_nodup
  rw [ljd_eq, getElem?_writeAll_replicate hnodup (Option.some_ne_none k)]
  constructor
  · rintro ⟨-, hmem⟩
    rcases mem_map.mp hmem with ⟨e, he, heq⟩
    rw [Prod.mk.injEq, Option.some.injEq] at heq
    rw [← heq.1, ← heq.2]
    exact mem_zipIdx_iff_getElem?.mp he
  · intro h
    refine ⟨P.joinDims_lt (mem_of_getElem? h), mem_map.mpr ⟨(l, k), ?_, rfl⟩⟩
    exact mem_zipIdx_iff_getElem?.mpr h

theorem Pairing.ljd_injective {i j : Nat} (hi : P.ljd[i]? = some (some k))
    (hj : P.ljd[j]? = some (some k)) : i = j := by
  rw [P.getElem?_ljd] at hi hj
  rwa [hi, Option.some.injEq] at hj

/-- The constructor of the array counts the joined dimensions. -/
theorem Pairing.nJoinDims_ljd : nJoinDims P.ljd = P.joinDims.length := by
  have hperm : P.ljd.reduceOption.Perm (List.range P.joinDims.length) := by
    rw [perm_ext_iff_of_nodup (reduceOption_nodup fun _ _ _ => P.ljd_injective) nodup_range]
    intro k
    rw [reduceOption_mem_iff, mem_iff_getElem?, mem_range]
    constructor
    · rintro ⟨l, hl⟩
      exact (List.getElem?_eq_some_iff.mp (P.getElem?_ljd.mp hl)).1
    · intro hk
      exact ⟨_, P.getElem?_ljd.mpr (getElem?_eq_getElem hk)⟩
  have hlen := hperm.length_eq
  rw [reduceOption_length_eq, length_range] at hlen
  rw [nJoinDims, countP_eq_length_filter, hlen]

/-! ## The key -/

/-- The key of a left position. -/
def Pairing.leftKey (left : Coordinates) : Coordinates :=
  P.joinDims.map fun l => left.getD l 0

/-- The writes of the loop over the left dimensions. -/
def keyWrites (left : Coordinates) : List (Nat × Int) :=
  (ljd.zip left).filterMap fun e => e.1.map fun k => (k, e.2)

theorem fillKey_eq_writeAll (left hashKey : Coordinates) :
    fillKey ljd left hashKey = writeAll (keyWrites ljd left) hashKey := by
  rw [writeAll, keyWrites, foldl_filterMap, fillKey]
  congr 1
  funext hashKey e
  cases e.1 with
  | none => rfl
  | some k => rfl

theorem mem_keyWrites {ljd : List (Option Nat)} :
    (k, x) ∈ keyWrites ljd left ↔ ∃ l : Nat, ljd[l]? = some (some k) ∧ left[l]? = some x := by
  rw [keyWrites, mem_filterMap]
  constructor
  · rintro ⟨⟨o, y⟩, he, hsome⟩
    rcases mem_iff_getElem?.mp he with ⟨l, hl⟩
    rw [getElem?_zip_eq_some] at hl
    rcases Option.map_eq_some_iff.mp hsome with ⟨k', rfl, heq⟩
    cases heq
    exact ⟨l, hl⟩
  · rintro ⟨l, hk, hx⟩
    exact ⟨(some k, x), mem_iff_getElem?.mpr ⟨l, getElem?_zip_eq_some.mpr ⟨hk, hx⟩⟩, rfl⟩

theorem Pairing.keyWrites_nodup (hleft : nLeftDims ≤ left.length) :
    ((keyWrites P.ljd left).map Prod.fst).Nodup := by
  have hkeys : (keyWrites P.ljd left).map Prod.fst = P.ljd.reduceOption := by
    rw [keyWrites, map_filterMap, List.reduceOption,
      ← map_fst_zip (P.length_ljd.trans_le hleft), filterMap_map, map_fst_zip
      (P.length_ljd.trans_le hleft)]
    congr 1
    funext e
    rw [Option.map_map]
    exact Option.map_id'
  rw [hkeys]
  exact reduceOption_nodup fun _ _ _ => P.ljd_injective

/-- The loop over the left dimensions stores every entry of the key. -/
theorem Pairing.fillKey_eq (hleft : nLeftDims ≤ left.length)
    (hkey : hashKey.length = nJoinDims P.ljd) : fillKey P.ljd left hashKey = P.leftKey left := by
  rw [P.nJoinDims_ljd] at hkey
  rw [fillKey_eq_writeAll]
  apply ext_getElem?
  intro k
  by_cases hk : k < P.joinDims.length
  · have hdim := getElem?_eq_getElem hk
    have hl := P.joinDims_lt (getElem_mem hk)
    have hcoord : left[P.joinDims[k]]? = some (left.getD P.joinDims[k] 0) := by
      rw [getElem?_eq_getElem (by omega), getD_eq_getElem _ _ (by omega)]
    rw [getElem?_writeAll_of_mem (P.keyWrites_nodup hleft)
      (mem_keyWrites.mpr ⟨_, P.getElem?_ljd.mpr hdim, hcoord⟩) (by omega), leftKey,
      getElem?_map, hdim, Option.map_some]
  · rw [getElem?_eq_none (by rw [length_writeAll]; omega),
      getElem?_eq_none (by rw [leftKey, length_map]; omega)]

theorem Pairing.decomposeLeftCoordinates_eq (hleft : left.length = nLeftDims)
    (hkey : hashKey.length = nJoinDims P.ljd) :
    decomposeLeftCoordinates P.ljd left hashKey = P.leftKey left :=
  P.fillKey_eq hleft.ge hkey

theorem Pairing.leftKey_take {pos : Coordinates} : P.leftKey (pos.take nLeftDims) =
    P.leftKey pos := by
  apply map_congr_left
  intro l hl
  rw [getD_eq_getElem?_getD, getElem?_take_of_lt (P.joinDims_lt hl), getD_eq_getElem?_getD]

theorem Pairing.decomposeOutCoordinates_eq {out : Coordinates} (hout : nLeftDims ≤ out.length)
    (hkey : hashKey.length = nJoinDims P.ljd) :
    decomposeOutCoordinates P.ljd out hashKey =
      (out.take nLeftDims, P.leftKey (out.take nLeftDims), out.drop nLeftDims) := by
  rw [decomposeOutCoordinates, P.fillKey_eq hout hkey, P.length_ljd, P.leftKey_take]

end Vectors

/-! ## Right positions -/

section Right

variable {rjd : List (Option Nat)} {left right right' leftover : Coordinates}

/-- Induction over the dimensions of a right position, joined or not. -/
theorem right_induction
    {motive : (rjd : List (Option Nat)) → (right : List α) → right.length = rjd.length → Prop}
    (nil : motive [] [] rfl)
    (free : ∀ x rjd right hlen, motive rjd right hlen →
      motive (none :: rjd) (x :: right) (congrArg (· + 1) hlen))
    (joined : ∀ l x rjd right hlen, motive rjd right hlen →
      motive (some l :: rjd) (x :: right) (congrArg (· + 1) hlen)) :
    ∀ rjd right hlen, motive rjd right hlen
  | [], [], _ => nil
  | none :: rjd, x :: right, hlen => free x rjd right (Nat.succ.inj hlen)
      (right_induction nil free joined rjd right _)
  | some l :: rjd, x :: right, hlen => joined l x rjd right (Nat.succ.inj hlen)
      (right_induction nil free joined rjd right _)

theorem decomposeRightCoordinates_snd (rjd : List (Option Nat)) (right : Coordinates) :
    (decomposeRightCoordinates rjd right).2 = unjoined rjd right := by
  induction rjd generalizing right with
  | nil => rfl
  | cons l rjd ih =>
    cases right with
    | nil => cases l <;> rfl
    | cons x right =>
      cases l with
      | none => exact congrArg (x :: ·) (ih right)
      | some l => exact ih right

/-- The coordinates of a right position that are joined. -/
def rightKey (rjd : List (Option Nat)) (right : Coordinates) : Coordinates :=
  (decomposeRightCoordinates rjd right).1

theorem matchPosition_joined {l : Nat} :
    matchPosition left (some l :: rjd) (x :: right) ↔
      left.getD l 0 = x ∧ matchPosition left rjd right := by
  rw [matchPosition]
  by_cases hx : left.getD l 0 = x
  · rw [if_neg (not_not.mpr hx), and_iff_right hx]
  · rw [if_pos hx]
    exact iff_of_false Bool.false_ne_true fun h => hx h.1

section

variable (hlen : right.length = rjd.length)

include hlen

theorem matchPosition_iff_key :
    matchPosition left rjd right ↔
      rjd.reduceOption.map (fun l => left.getD l 0) = rightKey rjd right := by
  induction rjd, right, hlen using right_induction with
  | nil => exact iff_of_true rfl rfl
  | free x rjd right hlen ih =>
    exact ih
  | joined l x rjd right hlen ih =>
    rw [reduceOption_cons_of_some, map_cons]
    show _ ↔ _ = x :: rightKey rjd right
    rw [matchPosition_joined, List.cons.injEq, ← ih]

/-- Among the positions with one key, the other coordinates decide the order. -/
theorem unjoined_lt_iff (hlen' : right'.length = rjd.length)
    (hkey : rightKey rjd right = rightKey rjd right') :
    unjoined rjd right < unjoined rjd right' ↔ right < right' := by
  induction rjd, right, hlen using right_induction generalizing right' with
  | nil =>
    rw [length_nil, length_eq_zero_iff] at hlen'
    rw [hlen']
    rfl
  | free x rjd right hlen ih =>
    cases right' with
    | nil => cases hlen'
    | cons x' right' =>
      show x :: unjoined rjd right < x' :: unjoined rjd right' ↔ _
      rw [cons_lt_cons_iff, cons_lt_cons_iff, ih (Nat.succ.inj hlen') hkey]
  | joined l x rjd right hlen ih =>
    cases right' with
    | nil => cases hlen'
    | cons x' right' =>
      have hkeys : x :: rightKey rjd right = x' :: rightKey rjd right' := hkey
      rw [List.cons.injEq] at hkeys
      rw [cons_lt_cons_iff, ← ih (Nat.succ.inj hlen') hkeys.2, hkeys.1]
      simp [unjoined]

/-- The right position can be read off from the output position. -/
theorem rightPosition_unjoined (hmatch : matchPosition left rjd right) :
    rightPosition left rjd (unjoined rjd right) = right := by
  induction rjd, right, hlen using right_induction with
  | nil => rfl
  | free x rjd right hlen ih => exact congrArg (x :: ·) (ih hmatch)
  | joined l x rjd right hlen ih =>
    rw [matchPosition_joined] at hmatch
    rw [unjoined, rightPosition, ih hmatch.2, hmatch.1]

end

@[simp]
theorem length_rightPosition (rjd : List (Option Nat)) (left leftover : Coordinates) :
    (rightPosition left rjd leftover).length = rjd.length := by
  induction rjd generalizing leftover with
  | nil => rfl
  | cons l rjd ih =>
    cases l with
    | none => exact congrArg (· + 1) (ih leftover.tail)
    | some l => exact congrArg (· + 1) (ih leftover)

theorem matchPosition_rightPosition (rjd : List (Option Nat)) (left leftover : Coordinates) :
    matchPosition left rjd (rightPosition left rjd leftover) := by
  induction rjd generalizing leftover with
  | nil => rfl
  | cons l rjd ih =>
    cases l with
    | none => exact ih leftover.tail
    | some l => exact matchPosition_joined.mpr ⟨rfl, ih leftover⟩

theorem unjoined_rightPosition (hlen : leftover.length = rjd.count none) :
    unjoined rjd (rightPosition left rjd leftover) = leftover := by
  induction rjd generalizing leftover with
  | nil =>
    rw [count_nil, length_eq_zero_iff] at hlen
    rw [hlen]
    rfl
  | cons l rjd ih =>
    cases l with
    | none =>
      rw [count_cons_self] at hlen
      cases leftover with
      | nil => cases hlen
      | cons x leftover => exact congrArg (x :: ·) (ih (Nat.succ.inj hlen))
    | some l =>
      exact ih hlen

theorem length_unjoined {right : List α} (hlen : right.length = rjd.length) :
    (unjoined rjd right).length = rjd.count none := by
  induction rjd, right, hlen using right_induction with
  | nil => rfl
  | free x rjd right hlen ih =>
    rw [count_cons_self]
    exact congrArg (· + 1) ih
  | joined l x rjd right hlen ih =>
    exact ih

/-- The joined coordinates are equal. -/
theorem matchPosition_iff_getElem? (hlen : right.length = rjd.length) :
    matchPosition left rjd right ↔
      ∀ r l : Nat, rjd[r]? = some (some l) → right[r]? = some (left.getD l 0) := by
  induction rjd, right, hlen using right_induction with
  | nil =>
    refine iff_of_true rfl ?_
    intro r l h
    cases h
  | free x rjd right hlen ih =>
    rw [matchPosition, ih]
    constructor
    · intro h r l hr
      cases r with
      | zero => cases hr
      | succ r => exact h r l hr
    · intro h r l hr
      exact h (r + 1) l hr
  | joined l x rjd right hlen ih =>
    rw [matchPosition_joined, ih]
    constructor
    · rintro ⟨hx, h⟩ r l' hr
      cases r with
      | zero =>
        rw [getElem?_cons_zero, Option.some.injEq, Option.some.injEq] at hr
        rw [← hr, hx]
        rfl
      | succ r => exact h r l' hr
    · intro h
      exact ⟨(Option.some.inj (h 0 l rfl)).symm, fun r => h (r + 1)⟩

theorem unjoined_zipWith {γ : Type} (f : α → β → γ) (rjd : List (Option Nat))
    {ys : List β} (hxs : xs.length = rjd.length) (hys : ys.length = rjd.length) :
    unjoined rjd (List.zipWith f xs ys) = List.zipWith f (unjoined rjd xs) (unjoined rjd ys) := by
  induction rjd, xs, hxs using right_induction generalizing ys with
  | nil => rfl
  | free x rjd xs hxs ih =>
    cases ys with
    | nil => cases hys
    | cons y ys => exact congrArg (f x y :: ·) (ih (Nat.succ.inj hys))
  | joined l x rjd xs hxs ih =>
    cases ys with
    | nil => cases hys
    | cons y ys => exact ih (Nat.succ.inj hys)

theorem unjoined_forall₂ {R : α → β → Prop} (rjd : List (Option Nat))
    {ys : List β} (h : List.Forall₂ R xs ys) :
    List.Forall₂ R (unjoined rjd xs) (unjoined rjd ys) := by
  induction rjd generalizing xs ys with
  | nil => exact .nil
  | cons o rjd ih =>
    cases h with
    | nil => cases o <;> exact .nil
    | cons hxy h =>
      cases o with
      | none => exact .cons hxy (ih h)
      | some l => exact ih h

theorem unjoined_eq_map {right : Coordinates} (hlen : right.length = rjd.length) :
    unjoined rjd right = ((List.range rjd.length).filter fun r => rjd[r]? = some none).map fun r =>
      right.getD r 0 := by
  induction rjd, right, hlen using right_induction with
  | nil => rfl
  | free x rjd right hlen ih =>
    rw [length_cons, range_succ_eq_map, filter_cons, filter_map,
      if_pos (by simp), map_cons, map_map]
    exact congrArg (x :: ·) ih
  | joined l x rjd right hlen ih =>
    rw [length_cons, range_succ_eq_map, filter_cons, filter_map, if_neg (by simp), map_map]
    exact ih

/-- The order of positions of equal length is decided by the first difference. -/
theorem append_lt_append {x y : Coordinates} (hlen : left.length = right.length)
    (h : left < right) : left ++ x < right ++ y := by
  induction left generalizing right with
  | nil =>
    rw [length_nil, eq_comm, length_eq_zero_iff] at hlen
    rw [hlen] at h
    cases h
  | cons a left ih =>
    cases right with
    | nil => cases hlen
    | cons b right =>
      rw [cons_append, cons_append, cons_lt_cons_iff]
      rcases cons_lt_cons_iff.mp h with hab | ⟨hab, h⟩
      · exact .inl hab
      · exact .inr ⟨hab, ih (Nat.succ.inj hlen) h⟩

end Right

/-! ## Pairs of positions -/

section Positions

variable {nLeftDims nRightDims : Nat} {P : Pairing nLeftDims nRightDims}
  {left right right' pos : Coordinates}

section

variable (hlen : right.length = nRightDims)

include hlen

/-- Positions match if they have the same key. -/
theorem Pairing.matchPosition_iff :
    matchPosition left P.rjd right ↔ P.leftKey left = rightKey P.rjd right :=
  matchPosition_iff_key (hlen.trans P.length_rjd.symm)

theorem Pairing.matchPosition_take :
    matchPosition (pos.take nLeftDims) P.rjd right ↔ matchPosition pos P.rjd right := by
  rw [P.matchPosition_iff hlen, P.matchPosition_iff hlen, P.leftKey_take]

/-- Right positions that match one left position are ordered by their other coordinates. -/
theorem Pairing.getPosition_lt (hlen' : right'.length = nRightDims)
    (h : matchPosition left P.rjd right) (h' : matchPosition left P.rjd right')
    (hlt : right < right') :
    getPosition P.rjd left right < getPosition P.rjd left right' := by
  rw [P.matchPosition_iff hlen] at h
  rw [P.matchPosition_iff hlen'] at h'
  apply append_left_lt
  rw [unjoined_lt_iff (hlen.trans P.length_rjd.symm) (hlen'.trans P.length_rjd.symm)
    (h.symm.trans h')]
  exact hlt

end

/-- A right position that matches can be found from the output position. -/
theorem Pairing.eq_of_getPosition {left' : Coordinates} (hleft : left.length = left'.length)
    (hlen : right.length = nRightDims) (hlen' : right'.length = nRightDims)
    (h : matchPosition left P.rjd right) (h' : matchPosition left' P.rjd right')
    (heq : getPosition P.rjd left right = getPosition P.rjd left' right') :
    left = left' ∧ right = right' := by
  rcases append_inj heq hleft with ⟨rfl, hunjoined⟩
  refine ⟨rfl, ?_⟩
  rw [← rightPosition_unjoined (hlen.trans P.length_rjd.symm) h, hunjoined,
    rightPosition_unjoined (hlen'.trans P.length_rjd.symm) h']

variable (P)

/-- The joined coordinates of the two positions are equal. -/
def Pairing.Matches (left right : Coordinates) : Prop :=
  ∀ p ∈ P.pairs, left[p.1]? = right[p.2]?

/-- The left position, followed by the coordinates of the right position that are not
joined. -/
def Pairing.outPosition (left right : Coordinates) :
    Coordinates :=
  left ++ ((List.range nRightDims).filter fun r => r ∉ P.pairs.map Prod.snd).map fun r =>
    right.getD r 0

variable {P}

theorem Pairing.matches_iff (hleft : left.length = nLeftDims) (hright : right.length = nRightDims) :
    P.Matches left right ↔ matchPosition left P.rjd right := by
  have hget : ∀ l : Nat, l < nLeftDims → left[l]? = some (left.getD l 0) := by
    intro l hl
    rw [getElem?_eq_getElem (by omega), getD_eq_getElem _ _ (by omega)]
  rw [matchPosition_iff_getElem? (hright.trans P.length_rjd.symm)]
  constructor
  · intro h r l hr
    have hmem := P.getElem?_rjd.mp hr
    rw [← h _ hmem, hget l (P.left_lt _ hmem)]
  · intro h p hp
    rw [h p.2 p.1 (P.getElem?_rjd.mpr hp), hget p.1 (P.left_lt _ hp)]

theorem Pairing.getPosition_eq (hright : right.length = nRightDims) :
    getPosition P.rjd left right = P.outPosition left right := by
  have hfilter : ((List.range nRightDims).filter fun r => P.rjd[r]? = some none) =
      (List.range nRightDims).filter fun r => r ∉ P.pairs.map Prod.snd := by
    apply filter_congr
    intro r hr
    have hr : r < P.rjd.length := P.length_rjd.symm ▸ mem_range.mp hr
    rw [Bool.eq_iff_iff, decide_eq_true_iff, decide_eq_true_iff, getElem?_eq_getElem hr]
    constructor
    · intro hnone hmem
      rcases mem_map.mp hmem with ⟨p, hp, rfl⟩
      have := P.getElem?_rjd.mpr hp
      rw [getElem?_eq_getElem hr, hnone] at this
      cases this
    · intro hmem
      cases hget : P.rjd[r] with
      | none => rfl
      | some l =>
        have := P.getElem?_rjd.mp ((getElem?_eq_getElem hr).trans (congrArg some hget))
        exact absurd (mem_map.mpr ⟨_, this, rfl⟩) hmem
  rw [getPosition, outPosition, unjoined_eq_map (hright.trans P.length_rjd.symm), P.length_rjd,
    hfilter]

end Positions

end SciDB.Operators.CrossJoin
