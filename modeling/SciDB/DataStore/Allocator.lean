import SciDB.Lib.Buddy
import SciDB.Lib.Runs
import SciDB.DataStore.Store

/-!
# The buddy allocator

The free lists of a data store together with the blocks it has handed out tile
the space `[0, _allocatedSize)`.  This module proves that each step of the
allocator (searching and splitting, growing, merging) keeps the tiling, as long
as the sizes stay within 64 bits.

Main results:

- Theorem {lit}`searchFreelist_spec`: the search takes one block of the requested
  size out of the free ones.
- Theorem {lit}`addToFreelist_spec`: a freed block is merged and put back.
- Theorems {lit}`allocateSpace_spec` and {lit}`freeChunk_spec`: whole calls keep
  the free and used blocks a partition of the space.
-/

namespace SciDB.DataStore

open Buckets Buddy Bits Runs

/-! ## Rounding up -/

theorem smear_eq {x : Nat} (h : x < 2 ^ 64) : smear x = 2 ^ x.size - 1 := by
  apply Window.eq_two_pow_sub_one _ h
  exact (window_one x).double.double.double.double.double.double

/-- `roundUpPowerOf2` gives the least power of two that is large enough. -/
theorem roundUpPowerOf2_spec {size : Nat} (hpos : 0 < size) (hle : size ≤ 2 ^ 63) :
    ∃ k, roundUpPowerOf2 size = 2 ^ k ∧ size ≤ 2 ^ k ∧ ∀ j, size ≤ 2 ^ j → k ≤ j := by
  have hsize : (size - 1).size ≤ 63 := Nat.size_le.mpr (by omega)
  have hpow : 2 ^ (size - 1).size ≤ 2 ^ 63 := Nat.pow_le_pow_right (by norm_num) hsize
  have hone : 1 ≤ 2 ^ (size - 1).size := Nat.one_le_two_pow
  refine ⟨(size - 1).size, ?_, ?_, ?_⟩
  · rw [roundUpPowerOf2, show size + 2 ^ 64 - 1 = size - 1 + 2 ^ 64 by omega, Nat.add_mod_right,
      Nat.mod_eq_of_lt (show size - 1 < 2 ^ 64 by omega), smear_eq (by omega),
      Nat.sub_add_cancel hone, Nat.mod_eq_of_lt (by omega)]
  · have := Nat.lt_size_self (size - 1)
    omega
  · intro j hj
    exact Nat.size_le.mpr (by omega)

variable {k n bucket off : Nat} {s : Store} {b : Block}

theorem roundUpPowerOf2_pow (h : k ≤ 63) : roundUpPowerOf2 (2 ^ k) = 2 ^ k := by
  have hle : 2 ^ k ≤ 2 ^ 63 := Nat.pow_le_pow_right (by norm_num) h
  rcases roundUpPowerOf2_spec (Nat.two_pow_pos k) hle with ⟨j, hj, hkj, hmin⟩
  have hkj' : k ≤ j := (Nat.pow_le_pow_iff_right (by norm_num)).mp hkj
  rw [hj, le_antisymm (hmin k le_rfl) hkj']

theorem double_pow (h : k ≤ 62) : 2 ^ k * 2 % 2 ^ 64 = 2 ^ (k + 1) := by
  rw [← pow_succ, Nat.mod_eq_of_lt]
  exact Nat.pow_lt_pow_right (by norm_num) (by omega)

/-! ## Free blocks -/

/-- The blocks on the free lists. -/
def freeBlocks (freelists : Freelists) : Set Block :=
  {b | Has freelists b.size b.off}

theorem freeBlocks_add (fl : Freelists) (k off : Nat) :
    freeBlocks (add fl k off) = insert ⟨k, off⟩ (freeBlocks fl) := by
  ext b
  simp [freeBlocks, has_add, Block.ext_iff]

theorem freeBlocks_remove (fl : Freelists) (k off : Nat) :
    freeBlocks (remove fl k off) = freeBlocks fl \ {⟨k, off⟩} := by
  ext b
  simp [freeBlocks, Set.mem_ofPred_eq, has_remove, Set.mem_sdiff, Block.ext_iff]

/-- The size of a block below `2 ^ 63`. -/
theorem exponent_le (h : 2 ^ k ≤ n) (hn : n ≤ 2 ^ 63) : k ≤ 63 :=
  (Nat.pow_le_pow_iff_right (by norm_num)).mp (h.trans hn)

theorem bucketBegin_ok {bucket : Finset Nat} (h : bucket ≠ ∅) :
    ∃ off ∈ bucket, bucketBegin bucket = .ok off := by
  have hne := Finset.nonempty_iff_ne_empty.mpr h
  refine ⟨bucket.min' hne, Finset.min'_mem _ _, ?_⟩
  rw [bucketBegin, ← Finset.coe_min']

/-! ## Searching -/

variable {n : Nat} {A : Set Block} {fl : Freelists}

/-- The search takes a block of the requested size out of the free ones,
splitting a larger one if necessary; all other new free blocks are at least as
large, and what was in one free block and is not touched still is. -/
theorem searchFreelist_spec {l : Nat} (levels : Nat) (hn : n ≤ 2 ^ 63)
    (hp : Partition n (freeBlocks fl) A) (hne : NoEmpty fl) (hlargest : 2 ^ l ∈ fl) (hkl : k ≤ l)
    (hlevels : l < k + levels) :
    ∃ ret fl', searchFreelist (2 ^ l) levels (2 ^ k) fl = .ok (ret, fl') ∧
      Hole n (freeBlocks fl') A ⟨2 ^ k, ret⟩ ∧ NoEmpty fl' ∧
      (∀ b ∈ freeBlocks fl', b ∈ freeBlocks fl ∨ 2 ^ k ≤ b.size) ∧
      ∀ b : Block, b.Dyadic → Inside (freeBlocks fl) b →
        (∀ x, b.Has x → ¬(⟨2 ^ k, ret⟩ : Block).Has x) → Inside (freeBlocks fl') b := by
  rcases hne.mem_iff.mp hlargest with ⟨x, hx⟩
  have hl63 : l ≤ 63 := by
    have hle := hp.tiling.le (b := ⟨2 ^ l, x⟩) (.inl hx)
    exact exponent_le (by simp only at hle; omega) hn
  induction levels generalizing k with
  | zero => omega
  | succ levels ih =>
    have hpow : 2 ^ k ≤ 2 ^ l := Nat.pow_le_pow_right (by norm_num) hkl
    rw [searchFreelist, require_pos hpow]
    cases hb : fl[2 ^ k]? with
    | some bucket =>
      rcases bucketBegin_ok (hne _ _ hb) with ⟨ret, hret, hbegin⟩
      refine ⟨ret, remove fl (2 ^ k) ret, ?_, ?_, hne.remove _ _, ?_, ?_⟩
      · simp only [hbegin]
        rfl
      · rw [freeBlocks_remove]
        exact hp.take ⟨bucket, hb, hret⟩
      · intro b hb
        rw [freeBlocks_remove] at hb
        exact .inl hb.1
      · rintro b hdyadic ⟨c, hc, hlow, hhigh⟩ hfree
        rw [freeBlocks_remove]
        refine ⟨c, ⟨hc, ?_⟩, hlow, hhigh⟩
        rintro rfl
        have := hdyadic.pos
        exact hfree b.off ⟨le_rfl, by omega⟩ ⟨hlow, by simp only at hhigh ⊢; omega⟩
    | none =>
      -- a larger block is split: `k < l`, because the largest bucket is there
      have hlt : k < l := by
        rcases Nat.lt_or_ge k l with h | h
        · exact h
        · rw [le_antisymm hkl h] at hb
          rw [Std.ExtTreeMap.mem_iff_isSome_getElem?, hb] at hlargest
          cases hlargest
      have hdouble := double_pow (k := k) (by omega)
      rcases ih (k := k + 1) (by omega) (by omega) with
        ⟨ret, fl', hsearch, hhole, hne', hnew, hinside⟩
      rw [pow_succ, Nat.mul_comm] at hhole
      have hsum : (ret + 2 ^ k) % 2 ^ 64 = ret + 2 ^ k := by
        have hle := hhole.tiling.le (.inl rfl)
        simp only at hle
        exact Nat.mod_eq_of_lt (by omega)
      refine ⟨ret, add fl' (2 ^ k) (ret + 2 ^ k), ?_, ?_, hne'.add _ _, ?_, ?_⟩
      · simp only [hdouble, hsearch, bind, Except.bind, hsum]
        rfl
      · rw [freeBlocks_add]
        exact hhole.split ⟨k, rfl⟩
      · intro b hb
        rw [freeBlocks_add] at hb
        rcases hb with rfl | hb
        · exact .inr le_rfl
        · rcases hnew b hb with h | h
          · exact .inl h
          · have : 2 ^ k ≤ 2 ^ (k + 1) := Nat.pow_le_pow_right (by norm_num) (by omega)
            exact .inr (this.trans h)
      · intro b hdyadic hb hfree
        rw [freeBlocks_add]
        rw [pow_succ, Nat.mul_comm] at hinside
        by_cases hmeet : ∀ x, b.Has x → ¬(⟨2 * 2 ^ k, ret⟩ : Block).Has x
        · rcases hinside b hdyadic hb hmeet with ⟨c, hc, hbc⟩
          exact ⟨c, .inr hc, hbc⟩
        · -- a block that meets the split one, but not its lower half, is in the upper half
          push Not at hmeet
          rcases hmeet with ⟨x, hbx, hx⟩
          have hwhole := hhole.tiling.dyadic _ (.inl rfl)
          have hhi := (has_halves.mp hx).resolve_left (hfree x hbx)
          refine ⟨_, .inl rfl, hdyadic.nested (dyadic_halves hwhole ⟨k, rfl⟩).2 ?_ hbx hhi⟩
          by_contra hlarge
          have hsub := hwhole.nested hdyadic ?_ hx hbx
          · have := Nat.two_pow_pos k
            simp only at hsub
            exact hfree ret ⟨hsub.1, by omega⟩ ⟨le_rfl, by simp⟩
          · rcases hdyadic.1 with ⟨j, hj⟩
            rw [hj] at hlarge ⊢
            rw [← pow_succ']
            exact Nat.pow_le_pow_right (by norm_num)
              ((Nat.pow_lt_pow_iff_right (by norm_num)).mp (not_le.mp hlarge))

/-! ## Merging -/

/-- The offset of the block of size `bucket` around `off`. -/
def ancestorOff (bucket off : Nat) : Nat :=
  off - off % bucket

/-- From some level up to `2 ^ 62` on, the merging of the freed block stops,
because the buddy of the merged block is not free. -/
def MergeStops (freelists : Freelists) (size off : Nat) : Prop :=
  ∃ j ≤ 62, size ≤ 2 ^ j ∧ ¬ Has freelists (2 ^ j) (buddyOff (2 ^ j) (ancestorOff (2 ^ j) off))

instance (freelists : Freelists) (size off : Nat) : Decidable (MergeStops freelists size off) :=
  inferInstanceAs (Decidable (∃ j ≤ 62, _ ∧ _))

theorem ancestorOff_eq (bucket off : Nat) : ancestorOff bucket off = bucket * (off / bucket) := by
  have := Nat.div_add_mod off bucket
  rw [ancestorOff]
  omega

theorem ancestorOff_self (h : bucket ∣ off) : ancestorOff bucket off = off := by
  rw [ancestorOff, Nat.mod_eq_zero_of_dvd h, Nat.sub_zero]

/-- A larger ancestor of an ancestor is an ancestor. -/
theorem ancestorOff_ancestorOff {a b : Nat} (ha : 0 < a) (h : a ∣ b) :
    ancestorOff b (ancestorOff a off) = ancestorOff b off := by
  rcases h with ⟨c, rfl⟩
  rw [ancestorOff_eq, ancestorOff_eq, ancestorOff_eq, Nat.mul_div_mul_left _ _ ha,
    Nat.div_div_eq_div_mul]

/-- A block and its buddy are the two halves of their parent. -/
theorem buddyOff_pair (hpos : 0 < bucket) (hdvd : bucket ∣ off) :
    let parent := ancestorOff (2 * bucket) off
    (off = parent ∧ buddyOff bucket off = parent + bucket) ∨
      (off = parent + bucket ∧ buddyOff bucket off = parent) := by
  rcases hdvd with ⟨c, rfl⟩
  have hmod : bucket * c % (2 * bucket) = bucket * (c % 2) := by
    rw [Nat.mul_comm 2, Nat.mul_mod_mul_left]
  simp only [ancestorOff, buddyOff, hmod]
  rcases Nat.mod_two_eq_zero_or_one c with h | h
  · simp [h]
  · have hle : bucket ≤ bucket * c := Nat.le_mul_of_pos_right _ (by omega)
    rw [h, Nat.mul_one, if_neg hpos.ne']
    exact .inr ⟨(Nat.sub_add_cancel hle).symm, rfl⟩

theorem buddyOff_merged (hpos : 0 < bucket) (hdvd : bucket ∣ off) :
    (if off < buddyOff bucket off then off else buddyOff bucket off) =
      ancestorOff (2 * bucket) off := by
  rcases buddyOff_pair hpos hdvd with ⟨h₁, h₂⟩ | ⟨h₁, h₂⟩
  · rw [if_pos (by omega)]
    exact h₁
  · rw [if_neg (by omega)]
    exact h₂

theorem MergeStops.le (h : MergeStops fl (2 ^ k) off) : k ≤ 62 := by
  rcases h with ⟨j, hj, hkj, -⟩
  exact ((Nat.pow_le_pow_iff_right one_lt_two).mp hkj).trans hj

/-- If merging stops, it stops for the merged block or before. -/
theorem MergeStops.merge (h : MergeStops fl (2 ^ k) off) (hoff : 2 ^ k ∣ off)
    (hbuddy : Has fl (2 ^ k) (buddyOff (2 ^ k) off)) :
    MergeStops (remove fl (2 ^ k) (buddyOff (2 ^ k) off)) (2 ^ (k + 1))
      (ancestorOff (2 * 2 ^ k) off) := by
  rcases h with ⟨j, hj, hkj, hnot⟩
  have hkj' : k ≤ j := (Nat.pow_le_pow_iff_right (by norm_num)).mp hkj
  have hne : k ≠ j := by
    rintro rfl
    rw [ancestorOff_self hoff] at hnot
    exact hnot hbuddy
  refine ⟨j, hj, Nat.pow_le_pow_right (by norm_num) (by omega), ?_⟩
  rw [ancestorOff_ancestorOff (by positivity)]
  · intro hhas
    exact hnot (has_remove.mp hhas).1
  · rw [← pow_succ']
    exact pow_dvd_pow 2 (by omega)

/-- Below the largest size, a block is merged with its buddy or added. -/
theorem addToFreelist_eq {levels : Nat} (hk : k ≤ 62) (hoff : 2 ^ k ∣ off) :
    addToFreelist (levels + 1) (2 ^ k) off fl =
      if Has fl (2 ^ k) (buddyOff (2 ^ k) off) then
        addToFreelist levels (2 ^ (k + 1)) (ancestorOff (2 * 2 ^ k) off)
          (remove fl (2 ^ k) (buddyOff (2 ^ k) off))
      else .ok (add fl (2 ^ k) off) := by
  have hdouble := double_pow hk
  rw [addToFreelist, require_pos (roundUpPowerOf2_pow (by omega)),
    require_pos (Nat.mod_eq_zero_of_dvd hoff), require_pos (by rw [hdouble]; positivity)]
  simp only [buddyOff_merged (Nat.two_pow_pos k) hoff, hdouble]
  cases hb : fl[2 ^ k]? with
  | none => simp [Has, hb]
  | some offsets => simp [Has, hb]

/-- A freed block is merged with its free buddies and put on the free lists; all
new free blocks are at least as large. -/
theorem addToFreelist_spec (levels : Nat) (hlevels : 62 < k + levels)
    (hh : Hole n (freeBlocks fl) A ⟨2 ^ k, off⟩) (hne : NoEmpty fl)
    (hstop : MergeStops fl (2 ^ k) off) :
    ∃ fl', addToFreelist levels (2 ^ k) off fl = .ok fl' ∧ Partition n (freeBlocks fl') A ∧
      NoEmpty fl' ∧ ∀ b ∈ freeBlocks fl', b ∈ freeBlocks fl ∨ 2 ^ k ≤ b.size := by
  induction levels generalizing k off fl with
  | zero =>
    have := hstop.le
    omega
  | succ levels ih =>
    have hoff : 2 ^ k ∣ off := (hh.tiling.dyadic _ (.inl rfl)).2
    rw [addToFreelist_eq hstop.le hoff]
    by_cases hhas : Has fl (2 ^ k) (buddyOff (2 ^ k) off)
    · have hmerge : Hole n (freeBlocks (remove fl (2 ^ k) (buddyOff (2 ^ k) off))) A
          ⟨2 ^ (k + 1), ancestorOff (2 * 2 ^ k) off⟩ := by
        rw [freeBlocks_remove, pow_succ']
        apply hh.merge hhas
        · simpa only [Block.mk.injEq, true_and] using buddyOff_pair (Nat.two_pow_pos k) hoff
        · rw [ancestorOff_eq]
          exact Nat.dvd_mul_right _ _
      rcases ih (by omega) hmerge (hne.remove _ _) (hstop.merge hoff hhas) with
        ⟨fl', hfl', hp, hne', hnew⟩
      refine ⟨fl', by rw [if_pos hhas, hfl'], hp, hne', ?_⟩
      intro b hb
      rcases hnew b hb with h | h
      · rw [freeBlocks_remove] at h
        exact .inl h.1
      · have : 2 ^ k ≤ 2 ^ (k + 1) := Nat.pow_le_pow_right (by norm_num) (by omega)
        exact .inr (this.trans h)
    · refine ⟨_, if_neg hhas, ?_, hne.add _ _, ?_⟩
      · rw [freeBlocks_add]
        exact hh.fillFree
      · intro b hb
        rw [freeBlocks_add] at hb
        rcases hb with rfl | hb
        · exact .inr le_rfl
        · exact .inl hb

/-! ## Growing -/

/-- Growing doubles the space until the request fits, and each doubling adds one
free block behind the old space.  The file grows with it if it is open. -/
theorem growLoop_spec {m : Nat} (rounds : Nat) (hk : k ≤ 62) (hm : m ≤ 62) (hr : 2 ≤ rounds)
    (hrounds : k + 2 ≤ m + rounds) (hsize : s.allocatedSize = 2 ^ m)
    (hp : Partition (2 ^ m) (freeBlocks s.freelists) A) (hne : NoEmpty s.freelists)
    (hgt : 2 ^ k > s.largestFreeChunk) :
    ∃ fl' m' l, growLoop (2 ^ k) rounds s = .ok
        { s with
          freelists := fl'
          largestFreeChunk := 2 ^ l
          allocatedSize := 2 ^ m'
          dataFile := if s.fileOpen then some (2 ^ m') else s.dataFile } ∧
      m < m' ∧ m' ≤ 63 ∧ k ≤ l ∧ l ≤ 62 ∧ 2 ^ l ∈ fl' ∧ Partition (2 ^ m') (freeBlocks fl') A ∧
      NoEmpty fl' ∧ freeBlocks s.freelists ⊆ freeBlocks fl' ∧
      ∀ b ∈ freeBlocks fl', b ∈ freeBlocks s.freelists ∨ b.off = b.size := by
  induction rounds generalizing m s with
  | zero => omega
  | succ rounds ih =>
    have hdouble := double_pow hm
    have hp' : Partition (2 ^ (m + 1)) (freeBlocks (add s.freelists (2 ^ m) (2 ^ m))) A := by
      rw [freeBlocks_add, pow_succ']
      exact hp.grow ⟨m, rfl⟩
    have hnew : ∀ b ∈ freeBlocks (add s.freelists (2 ^ m) (2 ^ m)),
        b ∈ freeBlocks s.freelists ∨ b.off = b.size := by
      intro b hb
      rw [freeBlocks_add] at hb
      rcases hb with rfl | hb
      · exact .inr rfl
      · exact .inl hb
    have hsub : freeBlocks s.freelists ⊆ freeBlocks (add s.freelists (2 ^ m) (2 ^ m)) := by
      rw [freeBlocks_add]
      exact Set.subset_insert _ _
    rw [growLoop, if_pos hgt]
    simp only [hsize, hdouble]
    by_cases hagain : 2 ^ k > 2 ^ m
    · have hlt : m < k := (Nat.pow_lt_pow_iff_right (by norm_num)).mp hagain
      rcases ih (by omega) (by omega) (by omega) (s := { s with
          freelists := add s.freelists (2 ^ m) (2 ^ m)
          largestFreeChunk := 2 ^ m
          allocatedSize := 2 ^ (m + 1)
          dataFile := if s.fileOpen then some (2 ^ (m + 1)) else s.dataFile })
        rfl hp' (hne.add _ _) hagain with
          ⟨fl', m', l, hgrow, hmm, hm', hkl, hl, hmem, hpart, hne', hmore, hblocks⟩
      refine ⟨fl', m', l, ?_, by omega, hm', hkl, hl, hmem, hpart, hne', hsub.trans hmore, ?_⟩
      · rw [hgrow]
        cases s.fileOpen <;> rfl
      · intro b hb
        rcases hblocks b hb with h | h
        · exact hnew b h
        · exact .inr h
    · have hkm : k ≤ m := (Nat.pow_le_pow_iff_right (a := 2) (by norm_num)).mp (by omega)
      refine ⟨_, m + 1, m, ?_, by omega, by omega, hkm, hm, ?_, hp', hne.add _ _, hsub, hnew⟩
      · cases rounds with
        | zero => omega
        | succ rounds => rw [growLoop, if_neg hagain]
      · exact (hne.add _ _).mem_iff.mpr ⟨2 ^ m, has_add.mpr (.inl ⟨rfl, rfl⟩)⟩

/-! ## Whole calls -/

/-- The state of the allocator: free and used blocks tile the space, whose size is
a power of two. -/
structure Allocator (s : Store) (A : Set Block) : Prop where
  partition : Partition s.allocatedSize (freeBlocks s.freelists) A
  size_pow : ∃ m ≤ 63, s.allocatedSize = 2 ^ m
  noEmpty : NoEmpty s.freelists
  largest : s.largestFreeChunk = largestKey s.freelists
  /-- Blocks without room for a header are never handed out: they are at the
  start of the space. -/
  used_size : ∀ b ∈ A, headerSize ≤ b.size
  small : ∀ b ∈ freeBlocks s.freelists, b.size < headerSize → b.off ≤ b.size

namespace Allocator

variable {s : Store}

variable (h : Allocator s A)

include h

theorem allocatedSize_le : s.allocatedSize ≤ 2 ^ 63 := by
  rcases h.size_pow with ⟨m, hm, heq⟩
  rw [heq]
  exact Nat.pow_le_pow_right (by norm_num) hm

/-- The key of a bucket is the size of a block. -/
theorem bucket_pow {k : Nat} (hk : k ∈ s.freelists) :
    ∃ l ≤ 63, k = 2 ^ l ∧ k ≤ s.allocatedSize := by
  rcases h.noEmpty.mem_iff.mp hk with ⟨x, hx⟩
  have hmem : (⟨k, x⟩ : Block) ∈ freeBlocks s.freelists ∪ A := .inl hx
  have hle := h.partition.tiling.le hmem
  rcases (h.partition.tiling.dyadic _ hmem).1 with ⟨l, hl⟩
  simp only at hl hle
  refine ⟨l, exponent_le ?_ h.allocatedSize_le, hl, ?_⟩
  · omega
  · omega

theorem largest_le : s.largestFreeChunk ≤ s.allocatedSize := by
  rw [h.largest]
  by_cases hzero : largestKey s.freelists = 0
  · omega
  · rcases h.bucket_pow (largestKey_mem hzero) with ⟨_, _, _, hle⟩
    exact hle

/-- If the largest free block is too small, so is every free block. -/
theorem lt_of_largest_lt {x : Nat} (hx : s.largestFreeChunk < x) : ∀ k ∈ s.freelists, k < x := by
  intro k hk
  have := le_largestKey hk
  rw [← h.largest] at this
  omega

/-- The size of the space and the free lists decide whether the allocator is in
order, not the rest of the store. -/
theorem congr {s' : Store} (hsize : s'.allocatedSize = s.allocatedSize)
    (hfl : s'.freelists = s.freelists) (hlargest : s'.largestFreeChunk = s.largestFreeChunk) :
    Allocator s' A := by
  rcases h with ⟨h₁, h₂, h₃, h₄, h₅, h₆⟩
  constructor
  · rwa [hsize, hfl]
  · rwa [hsize]
  · rwa [hfl]
  · rwa [hfl, hlargest]
  · exact h₅
  · rwa [hfl]

end Allocator

theorem invalidateFreelistFile_eq (s : Store) :
    invalidateFreelistFile s =
      { s with
        fldirty := s.fldirty || s.isFileCreated
        freelistFile := if s.isFileCreated && !s.fldirty then some (Bytes.le 8 0)
          else s.freelistFile } := by
  rcases s with ⟨created, _, _, dirty, _⟩
  cases created <;> cases dirty <;> rfl

variable (cfg : Config)

/-- The block for a request is a power of two that has room for the header, and
no smaller power of two will do. -/
theorem requiredSize_spec (hn : n + headerSize ≤ 2 ^ 62) :
    ∃ k ≤ 62, requiredSize cfg n = 2 ^ k ∧ n + headerSize ≤ 2 ^ k ∧
      ∀ j, n + headerSize ≤ 2 ^ j → cfg.minAllocSize ≤ 2 ^ j → k ≤ j := by
  have hmin := cfg.minAllocSize_lt
  have hmod : (n + headerSize) % 2 ^ 64 = n + headerSize := Nat.mod_eq_of_lt (by omega)
  have hsize : ∃ size, (if n + headerSize < cfg.minAllocSize then cfg.minAllocSize
      else n + headerSize) = size ∧ n + headerSize ≤ size ∧ size ≤ 2 ^ 62 ∧
      (size = n + headerSize ∨ size = cfg.minAllocSize) := by
    refine ⟨_, rfl, ?_⟩
    split <;> omega
  rcases hsize with ⟨size, heq, hge, hle, hor⟩
  have hpos : 0 < size := by
    simp only [headerSize] at hge
    omega
  rcases roundUpPowerOf2_spec hpos (by omega) with ⟨k, hround, hk, hleast⟩
  refine ⟨k, hleast 62 hle, ?_, by omega, ?_⟩
  · rw [requiredSize, hmod, heq, hround]
  · intro j hnj hminj
    rcases hor with rfl | rfl
    · exact hleast j hnj
    · exact hleast j hminj

/-- No free block has room for the request. -/
def NoRoom (s : Store) (n : Nat) : Prop :=
  ∀ k ∈ s.freelists, k < n + headerSize ∨ k < cfg.minAllocSize

instance (cfg : Config) (s : Store) (n : Nat) : Decidable (NoRoom cfg s n) :=
  decidable_of_iff (∀ k ∈ s.freelists.keys, k < n + headerSize ∨ k < cfg.minAllocSize)
    (by simp only [NoRoom, Std.ExtTreeMap.mem_keys])

/-- The space can be doubled within 64 bits, if no free block is large enough for
the request. -/
def GrowthFits (s : Store) (n : Nat) : Prop :=
  NoRoom cfg s n → s.allocatedSize ≤ 2 ^ 62

instance (cfg : Config) (s : Store) (n : Nat) : Decidable (GrowthFits cfg s n) :=
  inferInstanceAs (Decidable (_ → _))

/-- After growing where necessary there is a free block of the requested size. -/
theorem makeRoom_spec (h : Allocator s A) (hk : k ≤ 62)
    (hfits : 2 ^ k > s.largestFreeChunk → s.allocatedSize ≤ 2 ^ 62) :
    ∃ fl' m l, (if 2 ^ k > s.largestFreeChunk then makeMoreSpace s (2 ^ k) else .ok s) = .ok
        { s with
          freelists := fl'
          largestFreeChunk := 2 ^ l
          allocatedSize := 2 ^ m
          dataFile := if s.fileOpen ∧ s.allocatedSize < 2 ^ m then some (2 ^ m) else s.dataFile } ∧
      s.allocatedSize ≤ 2 ^ m ∧ (2 ^ k ≤ s.largestFreeChunk → s.allocatedSize = 2 ^ m) ∧
      m ≤ 63 ∧ k ≤ l ∧ l ≤ 63 ∧ 2 ^ l ∈ fl' ∧ Partition (2 ^ m) (freeBlocks fl') A ∧ NoEmpty fl' ∧
      freeBlocks s.freelists ⊆ freeBlocks fl' ∧
      ∀ b ∈ freeBlocks fl', b ∈ freeBlocks s.freelists ∨ b.off = b.size := by
  rcases h.size_pow with ⟨m, hm, hsize⟩
  by_cases hgt : 2 ^ k > s.largestFreeChunk
  · have hm62 : m ≤ 62 := by
      have := hfits hgt
      rw [hsize] at this
      exact (Nat.pow_le_pow_iff_right (by norm_num)).mp this
    rcases growLoop_spec 65 hk hm62 (by omega) (by omega) hsize
      (hsize ▸ h.partition) h.noEmpty hgt with
      ⟨fl', m', l, hgrow, hmm, hm', hkl, hl, hmem, hp, hne, hblocks⟩
    have hlt : 2 ^ m < 2 ^ m' := Nat.pow_lt_pow_right (by norm_num) hmm
    refine ⟨fl', m', l, ?_, by omega, by omega, hm', hkl, by omega, hmem, hp, hne, hblocks⟩
    rw [if_pos hgt, makeMoreSpace, require_pos hgt, require_pos h.largest_le, hgrow]
    simp [hsize, hlt]
  · have hpos := Nat.two_pow_pos k
    have hmem : s.largestFreeChunk ∈ s.freelists := by
      rw [h.largest] at hgt ⊢
      exact largestKey_mem (by omega)
    rcases h.bucket_pow hmem with ⟨l, hl, heq, _⟩
    have hkl : k ≤ l := by
      exact (Nat.pow_le_pow_iff_right (a := 2) (by norm_num)).mp (by omega)
    refine ⟨s.freelists, m, l, ?_, hsize.le, fun _ => hsize, hm, hkl, hl, heq ▸ hmem,
      hsize ▸ h.partition,
      h.noEmpty, subset_rfl, fun b hb => .inl hb⟩
    rw [if_neg hgt]
    simp [← hsize, ← heq]

/-- An allocation takes a free block, growing the space if necessary. -/
theorem allocateSpace_spec {cfg : Config} (h : Allocator s A) (hn : n + headerSize ≤ 2 ^ 62)
    (hfits : GrowthFits cfg s n) :
    ∃ s' fl' m ret k, allocateSpace cfg s n = .ok (s', ret, 2 ^ k) ∧
      s' = calcLargestFreeChunk
        { invalidateFreelistFile s with
          freelists := fl'
          allocatedSize := 2 ^ m
          dataFile := if s.fileOpen ∧ s.allocatedSize < 2 ^ m then some (2 ^ m) else s.dataFile } ∧
      n + headerSize ≤ 2 ^ k ∧ s.allocatedSize ≤ 2 ^ m ∧
      (¬ NoRoom cfg s n → s.allocatedSize = 2 ^ m) ∧ (⟨2 ^ k, ret⟩ : Block) ∉ A ∧
      (∀ b : Block, b.Dyadic → Inside (freeBlocks s.freelists) b →
        (∀ x, b.Has x → ¬(⟨2 ^ k, ret⟩ : Block).Has x) → Inside (freeBlocks fl') b) ∧
      Allocator s' (insert ⟨2 ^ k, ret⟩ A) := by
  rcases requiredSize_spec cfg hn with ⟨k, hk, hreq, hnk, hleast⟩
  -- a request that fits no free block is one that makes the store grow
  have hgrow : 2 ^ k > s.largestFreeChunk → NoRoom cfg s n := by
    intro hgt key hkey
    have hlt := h.lt_of_largest_lt hgt key hkey
    rcases h.bucket_pow hkey with ⟨l, _, rfl, _⟩
    have hlk : l < k := (Nat.pow_lt_pow_iff_right (by norm_num)).mp hlt
    by_contra hcon
    have := hleast l (by omega) (by omega)
    omega
  rcases makeRoom_spec (s := invalidateFreelistFile s)
    (h.congr (by rw [invalidateFreelistFile_eq]) (by rw [invalidateFreelistFile_eq])
      (by rw [invalidateFreelistFile_eq])) hk
    (by rw [invalidateFreelistFile_eq]; exact fun hgt => hfits (hgrow hgt)) with
    ⟨fl₁, m, l, hroom, hle, hsame, hm, hkl, hl, hmem, hp, hne, hsub, hblocks⟩
  have hn63 : 2 ^ m ≤ 2 ^ 63 := Nat.pow_le_pow_right (by norm_num) hm
  rcases searchFreelist_spec 65 hn63 hp hne hmem hkl (by omega) with
    ⟨ret, fl', hsearch, hhole, hne', hnew, hinside⟩
  rw [invalidateFreelistFile_eq] at hle hsame hsub
  refine ⟨_, fl', m, ret, k, ?_, rfl, hnk, hle, ?_, hhole.notUsed, ?_, ?_⟩
  · rw [allocateSpace, hreq]
    simp only [hroom, bind, Except.bind]
    rw [require_pos (Nat.pow_le_pow_right (by norm_num) hkl)]
    simp only [hsearch, invalidateFreelistFile_eq]
    rfl
  · intro hroom
    exact hsame (Nat.le_of_not_lt fun hgt => hroom (hgrow hgt))
  · rintro b hdyadic ⟨c, hc, hbc⟩ hfree
    exact hinside b hdyadic ⟨c, hsub hc, hbc⟩ hfree
  · have hk16 : headerSize ≤ 2 ^ k := by omega
    refine ⟨hhole.fillUsed, ⟨m, hm, rfl⟩, hne', rfl, ?_, ?_⟩
    · rintro b (rfl | hb)
      · exact hk16
      · exact h.used_size b hb
    · intro b hb hsmall
      rcases hnew b hb with hb | hb
      · rcases hblocks b hb with hb | hb
        · rw [invalidateFreelistFile_eq] at hb
          exact h.small b hb hsmall
        · omega
      · omega

/-! ## Freeing -/

/-- No block lies inside a larger free one. -/
theorem isParentBlockFree_eq_false (hp : Partition n (freeBlocks fl) A)
    (hb : b ∈ freeBlocks fl ∪ A) : isParentBlockFree fl b.off b.size = false := by
  rw [isParentBlockFree, List.any_eq_false]
  rintro ⟨key, offsets⟩ hbucket hparent
  rw [Std.ExtTreeMap.mem_toList_iff_getElem?_eq_some] at hbucket
  simp only [Bool.and_eq_true, decide_eq_true_eq] at hparent
  have hfree : (⟨key, b.off - b.off % key⟩ : Block) ∈ freeBlocks fl :=
    ⟨offsets, hbucket, hparent.2⟩
  have hmod : b.off % key < key := Nat.mod_lt _ (by omega)
  have hpos := (hp.tiling.dyadic b hb).pos
  have heq := hp.tiling.unique _ (.inl hfree) b hb b.off
    ⟨by simp only; omega, by simp only; omega⟩ ⟨le_rfl, by omega⟩
  have hsize := congrArg Block.size heq
  simp only at hsize
  omega

theorem verifyFreelistInternal_eq_true (hp : Partition n (freeBlocks fl) A) :
    verifyFreelistInternal fl = true := by
  rw [verifyFreelistInternal, List.all_eq_true]
  rintro ⟨key, offsets⟩ hbucket
  rw [List.all_eq_true]
  intro off hoff
  rw [Std.ExtTreeMap.mem_toList_iff_getElem?_eq_some] at hbucket
  have hfree : (⟨key, off⟩ : Block) ∈ freeBlocks fl :=
    ⟨offsets, hbucket, (Finset.mem_sort _).mp hoff⟩
  rw [isParentBlockFree_eq_false hp (.inl hfree)]
  rfl

/-- Below `2 ^ 63` merging always stops, at the latest with the whole space. -/
theorem MergeStops.of_lt (h : Allocator s A) (hb : b ∈ A)
    (hstop : s.allocatedSize = 2 ^ 63 → MergeStops s.freelists b.size b.off) :
    MergeStops s.freelists b.size b.off := by
  rcases h.size_pow with ⟨m, hm, hsize⟩
  by_cases hm63 : m = 63
  · exact hstop (hm63 ▸ hsize)
  · have hle := h.partition.tiling.le (.inr hb)
    have hpos := (h.partition.tiling.dyadic b (.inr hb)).pos
    refine ⟨m, by omega, by omega, ?_⟩
    -- the buddy of the whole space lies outside of it
    rw [ancestorOff_eq, Nat.div_eq_of_lt (by omega), Nat.mul_zero, buddyOff, Nat.zero_add]
    intro hbuddy
    have := h.partition.tiling.le (b := ⟨2 ^ m, 2 ^ m⟩) (.inl hbuddy)
    simp only [hsize] at this
    omega

theorem checkFileOpen_eq (s : Store) :
    checkFileOpen s =
      { s with
        fileOpen := true
        isFileCreated := s.isFileCreated || !s.fileOpen
        dataFile := if s.fileOpen then s.dataFile
          else some (max (s.dataFile.getD 0) s.allocatedSize) } := by
  rw [checkFileOpen]
  rcases s with ⟨_, opened, _⟩
  cases opened
  · simp only [Bool.false_eq_true, not_false_eq_true, if_true, if_false, Bool.not_false,
      Bool.or_true, Store.mk.injEq, Option.some.injEq, true_and, and_true, max_def]
    split <;> split <;> omega
  · simp

/-- A block that is not in a larger free one is added to the free lists. -/
theorem freeChunk_eq {size : Nat} (hparent : isParentBlockFree s.freelists off size = false) :
    freeChunk cfg s off size = addToFreelist 65 size off s.freelists >>= fun fl' =>
      let t := { invalidateFreelistFile s with freelists := fl', frees := s.frees + 1 }
      require (t.frees % 10000 = 0 → verifyFreelistInternal fl' = true) .corruptFreelist
        (.ok (calcLargestFreeChunk (if cfg.punchHoles then checkFileOpen t else t))) := by
  have hfl : (invalidateFreelistFile s).freelists = s.freelists := by rw [invalidateFreelistFile_eq]
  have hfrees : (invalidateFreelistFile s).frees = s.frees := by rw [invalidateFreelistFile_eq]
  rw [freeChunk]
  simp only [hfl, hparent]
  cases cfg.punchHoles
  · simp only [hfrees]
    rfl
  · simp only [checkFileOpen_eq, hfrees]
    rfl

/-- Freeing an allocated block returns it to the free lists. -/
theorem freeChunk_spec (h : Allocator s A) (hb : b ∈ A)
    (hstop : s.allocatedSize = 2 ^ 63 → MergeStops s.freelists b.size b.off) :
    ∃ s' t fl', freeChunk cfg s b.off b.size = .ok s' ∧
      t = { invalidateFreelistFile s with freelists := fl', frees := s.frees + 1 } ∧
      s' = calcLargestFreeChunk (if cfg.punchHoles then checkFileOpen t else t) ∧
      Allocator s' (A \ {b}) := by
  rcases b with ⟨size, off⟩
  rcases (h.partition.tiling.dyadic _ (.inr hb)).1 with ⟨k, rfl⟩
  have hsize : (invalidateFreelistFile s).allocatedSize = s.allocatedSize := by
    rw [invalidateFreelistFile_eq]
  have hparent : isParentBlockFree s.freelists off (2 ^ k) = false :=
    isParentBlockFree_eq_false h.partition (.inr hb)
  rcases addToFreelist_spec 65 (by omega) (h.partition.release hb) h.noEmpty
    (MergeStops.of_lt h hb hstop) with ⟨fl', hadd, hp, hne, hnew⟩
  -- opening the file to punch a hole leaves the allocator alone
  have hopen : ∀ t : Store,
      (if cfg.punchHoles then checkFileOpen t else t).freelists = t.freelists ∧
        (if cfg.punchHoles then checkFileOpen t else t).allocatedSize = t.allocatedSize := by
    intro t
    cases cfg.punchHoles <;> simp [checkFileOpen_eq]
  refine ⟨_, _, fl', ?_, rfl, rfl, ?_⟩
  · rw [freeChunk_eq cfg hparent, hadd]
    exact require_pos (fun _ => verifyFreelistInternal_eq_true hp) _ _
  · constructor
    · simp only [calcLargestFreeChunk, hopen, hsize]
      exact hp
    · simp only [calcLargestFreeChunk, hopen, hsize]
      exact h.size_pow
    · simp only [calcLargestFreeChunk, hopen]
      exact hne
    · rfl
    · exact fun b hb => h.used_size b hb.1
    · simp only [calcLargestFreeChunk, hopen]
      intro b' hb' hsmall
      rcases hnew b' hb' with h' | h'
      · exact h.small b' h' hsmall
      · have := h.used_size _ hb
        simp only at this
        omega

/-! ## A new store -/

theorem roundUpPowerOf2_zero : roundUpPowerOf2 0 = 0 := by
  decide +kernel

/-- Without a data file the store starts with one free block, whatever is in the
free-list file. -/
theorem construct_new (freelistFile : Option (List UInt8)) :
    ∃ s size, construct cfg none freelistFile = .ok s ∧
      size = roundUpPowerOf2 cfg.minAllocSize ∧ cfg.minAllocSize ≤ size ∧
      s = { isFileCreated := false, fileOpen := false, dirty := false, fldirty := false, frees := 0,
            largestFreeChunk := largestKey (add ∅ size 0), allocatedSize := size,
            freelists := add ∅ size 0, dataFile := none, freelistFile := freelistFile } ∧
      Allocator s ∅ := by
  have hmin := cfg.minAllocSize_lt
  rcases roundUpPowerOf2_spec cfg.minAllocSize_pos (by omega) with ⟨m, hm, hle, hleast⟩
  have hm31 := hleast 31 (by omega)
  have hblocks : freeBlocks (add ∅ (2 ^ m) 0) = {⟨2 ^ m, 0⟩} := by
    rw [freeBlocks_add]
    ext b
    simp [freeBlocks, Has]
  refine ⟨_, 2 ^ m, ?_, hm.symm, hle, rfl, ?_⟩
  · rw [construct]
    simp only [Option.getD_none, roundUpPowerOf2_zero, cfg.minAllocSize_pos, hm]
    rfl
  · refine ⟨?_, ⟨m, by omega, rfl⟩, ?_, rfl, by simp, ?_⟩
    · simp only [hblocks]
      exact partition_single ⟨m, rfl⟩
    · apply NoEmpty.add
      intro k b hb
      simp at hb
    · simp only [hblocks]
      rintro b rfl _
      exact Nat.zero_le _

end SciDB.DataStore
