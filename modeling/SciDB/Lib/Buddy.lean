import Mathlib

/-!
# Buddy blocks

Blocks of a power-of-two size that are aligned to their size and together tile
the addresses below a bound.  A block can be split into its two halves and two
buddies can be merged again; the arena can be doubled.

The blocks are divided into free and used ones.  While an allocator works, one
block is neither: it has been taken out of one side and not yet put into the
other.  `Hole` describes such a state, and each step of the allocator is one
lemma about it.
-/

namespace SciDB.Buddy

/-- The addresses from `off` up to `off + size`. -/
@[ext]
structure Block where
  size : Nat
  off : Nat
deriving DecidableEq, Repr

/-- An address of a block. -/
def Block.Has (b : Block) (x : Nat) : Prop :=
  b.off ≤ x ∧ x < b.off + b.size

/-- A power of two in size, aligned to its size. -/
def Block.Dyadic (b : Block) : Prop :=
  (∃ k, b.size = 2 ^ k) ∧ b.size ∣ b.off

theorem Block.Dyadic.pos {b : Block} (h : b.Dyadic) : 0 < b.size := by
  rcases h.1 with ⟨k, hk⟩
  rw [hk]
  exact Nat.two_pow_pos k

variable {x : Nat}

/-- Dyadic blocks with a common address are nested. -/
theorem Block.Dyadic.nested {b c : Block} (hb : b.Dyadic) (hc : c.Dyadic)
    (hle : b.size ≤ c.size) (hbx : b.Has x) (hcx : c.Has x) :
    c.off ≤ b.off ∧ b.off + b.size ≤ c.off + c.size := by
  rcases hb.1 with ⟨i, hi⟩
  rcases hc.1 with ⟨j, hj⟩
  have hdvd : b.size ∣ c.size := by
    rw [hi, hj] at hle ⊢
    exact pow_dvd_pow 2 ((Nat.pow_le_pow_iff_right (by norm_num)).mp hle)
  have hoff := hdvd.trans hc.2
  simp only [Block.Has] at hbx hcx
  exact ⟨Nat.le_of_lt_add_of_dvd (by omega) hoff hb.2,
    Nat.le_of_lt_add_of_dvd (by omega) (dvd_add hb.2 dvd_rfl) (dvd_add hoff hdvd)⟩

/-- The block lies in one of the blocks. -/
def Inside (F : Set Block) (b : Block) : Prop :=
  ∃ c ∈ F, c.off ≤ b.off ∧ b.off + b.size ≤ c.off + c.size

/-- The blocks tile the addresses below `n`. -/
structure Tiling (n : Nat) (B : Set Block) : Prop where
  dyadic : ∀ b ∈ B, b.Dyadic
  covers : ∀ x, x < n ↔ ∃ b ∈ B, b.Has x
  unique : ∀ b ∈ B, ∀ c ∈ B, ∀ x, b.Has x → c.Has x → b = c

namespace Tiling

variable {n s o : Nat} {B : Set Block} {b : Block}

/-- Every block lies below the bound. -/
theorem le (h : Tiling n B) (hb : b ∈ B) : b.off + b.size ≤ n := by
  have hpos := (h.dyadic b hb).pos
  have : b.off + b.size - 1 < n := (h.covers _).mpr ⟨b, hb, by constructor <;> omega⟩
  omega

/-- Blocks are replaced by others with the same addresses and those up to a new bound. -/
theorem replace (h : Tiling n B) {m : Nat} (hle : n ≤ m) (old new : Set Block) (hold : old ⊆ B)
    (hdyadic : ∀ b ∈ new, b.Dyadic)
    (hsame : ∀ x, (∃ b ∈ new, b.Has x) ↔ (∃ b ∈ old, b.Has x) ∨ n ≤ x ∧ x < m)
    (hunique : ∀ b ∈ new, ∀ c ∈ new, ∀ x, b.Has x → c.Has x → b = c) :
    Tiling m ((B \ old) ∪ new) where
  dyadic := by
    rintro b (hb | hb)
    · exact h.dyadic b hb.1
    · exact hdyadic b hb
  covers := by
    intro x
    constructor
    · intro hx
      rcases lt_or_ge x n with hlt | hge
      · rcases (h.covers x).mp hlt with ⟨b, hb, hbx⟩
        by_cases hbold : b ∈ old
        · rcases (hsame x).mpr (.inl ⟨b, hbold, hbx⟩) with ⟨c, hc, hcx⟩
          exact ⟨c, .inr hc, hcx⟩
        · exact ⟨b, .inl ⟨hb, hbold⟩, hbx⟩
      · rcases (hsame x).mpr (.inr ⟨hge, hx⟩) with ⟨c, hc, hcx⟩
        exact ⟨c, .inr hc, hcx⟩
    · rintro ⟨b, hb | hb, hx⟩
      · exact ((h.covers x).mpr ⟨b, hb.1, hx⟩).trans_le hle
      · rcases (hsame x).mp ⟨b, hb, hx⟩ with ⟨c, hc, hcx⟩ | hx
        · exact ((h.covers x).mpr ⟨c, hold hc, hcx⟩).trans_le hle
        · exact hx.2
  unique := by
    -- a kept block shares no address with a new one: that address has an old owner or none
    have hcross : ∀ b ∈ B \ old, ∀ c ∈ new, ∀ x, b.Has x → ¬ c.Has x := by
      intro b hb c hc x hbx hcx
      rcases (hsame x).mp ⟨c, hc, hcx⟩ with ⟨d, hd, hdx⟩ | hx
      · have heq := h.unique b hb.1 d (hold hd) x hbx hdx
        exact hb.2 (heq ▸ hd)
      · exact hx.1.not_gt ((h.covers x).mpr ⟨b, hb.1, hbx⟩)
    rintro b (hb | hb) c (hc | hc) x hbx hcx
    · exact h.unique b hb.1 c hc.1 x hbx hcx
    · exact absurd hcx (hcross b hb c hc x hbx)
    · exact absurd hbx (hcross c hc b hb x hcx)
    · exact hunique b hb c hc x hbx hcx

end Tiling

/-! ## The two halves of a block -/

variable {o s n : Nat} {B : Set Block}

theorem has_halves :
    (⟨2 * s, o⟩ : Block).Has x ↔ (⟨s, o⟩ : Block).Has x ∨ (⟨s, o + s⟩ : Block).Has x := by
  simp only [Block.Has]
  omega

theorem dyadic_halves (h : (⟨2 * s, o⟩ : Block).Dyadic) (hs : ∃ k, s = 2 ^ k) :
    (⟨s, o⟩ : Block).Dyadic ∧ (⟨s, o + s⟩ : Block).Dyadic := by
  have hdvd : s ∣ o := (Dvd.intro_left 2 rfl).trans h.2
  exact ⟨⟨hs, hdvd⟩, hs, (Nat.dvd_add_right hdvd).mpr dvd_rfl⟩

theorem Tiling.split (h : Tiling n B) (hb : (⟨2 * s, o⟩ : Block) ∈ B) (hs : ∃ k, s = 2 ^ k) :
    Tiling n ((B \ {⟨2 * s, o⟩}) ∪ {⟨s, o⟩, ⟨s, o + s⟩}) := by
  have hdyadic := dyadic_halves (h.dyadic _ hb) hs
  refine h.replace le_rfl _ _ ?_ ?_ ?_ ?_
  · simpa using hb
  · rintro b (rfl | rfl)
    · exact hdyadic.1
    · exact hdyadic.2
  · intro x
    simp only [Set.mem_insert_iff, Set.mem_singleton_iff, exists_eq_or_imp, exists_eq_left]
    exact has_halves.symm.trans (or_iff_left (by omega)).symm
  · rintro b (rfl | rfl) c (rfl | rfl) x hbx hcx
    · rfl
    · simp only [Block.Has] at hbx hcx
      omega
    · simp only [Block.Has] at hbx hcx
      omega
    · rfl

theorem Tiling.merge (h : Tiling n B) (hlo : (⟨s, o⟩ : Block) ∈ B) (hhi : (⟨s, o + s⟩ : Block) ∈ B)
    (halign : 2 * s ∣ o) :
    Tiling n ((B \ {⟨s, o⟩, ⟨s, o + s⟩}) ∪ {⟨2 * s, o⟩}) := by
  rcases (h.dyadic _ hlo).1 with ⟨k, hk⟩
  refine h.replace le_rfl _ _ ?_ ?_ ?_ (by simp)
  · rintro b (rfl | rfl)
    · exact hlo
    · exact hhi
  · rintro b rfl
    refine ⟨⟨k + 1, ?_⟩, halign⟩
    rw [pow_succ, ← show s = 2 ^ k from hk, Nat.mul_comm]
  · intro x
    simp only [Set.mem_insert_iff, Set.mem_singleton_iff, exists_eq_or_imp, exists_eq_left]
    exact has_halves.trans (or_iff_left (by omega)).symm

/-- Doubling the arena adds one block as large as the arena was. -/
theorem Tiling.grow (h : Tiling n B) (hn : ∃ k, n = 2 ^ k) : Tiling (2 * n) (insert ⟨n, n⟩ B) := by
  have hgrown := h.replace (m := 2 * n) (by omega) ∅ {⟨n, n⟩} (Set.empty_subset B)
    (by rintro b rfl; exact ⟨hn, dvd_rfl⟩) (by simp [Block.Has, two_mul]) (by simp)
  rwa [Set.sdiff_empty, Set.union_singleton] at hgrown

/-! ## Free and used blocks -/

/-- Free and used blocks tile the arena and no block is both. -/
structure Partition (n : Nat) (F A : Set Block) : Prop where
  tiling : Tiling n (F ∪ A)
  disjoint : ∀ b ∈ F, b ∉ A

/-- Free and used blocks tile the arena up to one block `h` that is neither. -/
structure Hole (n : Nat) (F A : Set Block) (h : Block) : Prop where
  tiling : Tiling n (insert h (F ∪ A))
  disjoint : ∀ b ∈ F, b ∉ A
  notFree : h ∉ F
  notUsed : h ∉ A

section

variable {n s o : Nat} {F A : Set Block} {b h : Block}

/-- Take a block out of the free ones. -/
theorem Partition.take (hp : Partition n F A) (hb : b ∈ F) : Hole n (F \ {b}) A b where
  tiling := by
    rw [← Set.insert_union, Set.insert_sdiff_singleton, Set.insert_eq_of_mem hb]
    exact hp.tiling
  disjoint := fun c hc => hp.disjoint c hc.1
  notFree := fun hc => hc.2 rfl
  notUsed := hp.disjoint b hb

/-- Take a block out of the used ones. -/
theorem Partition.release (hp : Partition n F A) (hb : b ∈ A) : Hole n F (A \ {b}) b where
  tiling := by
    rw [← Set.union_insert, Set.insert_sdiff_singleton, Set.insert_eq_of_mem hb]
    exact hp.tiling
  disjoint := fun c hc hcA => hp.disjoint c hc hcA.1
  notFree := fun hc => hp.disjoint b hc hb
  notUsed := fun hc => hc.2 rfl

theorem Hole.fillFree (hh : Hole n F A h) : Partition n (insert h F) A where
  tiling := by
    rw [Set.insert_union]
    exact hh.tiling
  disjoint := by
    rintro c (rfl | hc)
    · exact hh.notUsed
    · exact hh.disjoint c hc

theorem Hole.fillUsed (hh : Hole n F A h) : Partition n F (insert h A) where
  tiling := by
    rw [Set.union_insert]
    exact hh.tiling
  disjoint := by
    rintro c hc (rfl | hcA)
    · exact hh.notFree hc
    · exact hh.disjoint c hc hcA

/-- No free or used block shares an address with the hole. -/
theorem Hole.not_has (hh : Hole n F A h) {c : Block} (hc : c ∈ F ∪ A)
    (hcx : c.Has x) : ¬ h.Has x := by
  intro hx
  have heq := hh.tiling.unique c (.inr hc) h (.inl rfl) x hcx hx
  rcases hc with hc | hc
  · exact hh.notFree (heq ▸ hc)
  · exact hh.notUsed (heq ▸ hc)

/-- Split the hole and free its upper half. -/
theorem Hole.split (hh : Hole n F A ⟨2 * s, o⟩) (hs : ∃ k, s = 2 ^ k) :
    Hole n (insert ⟨s, o + s⟩ F) A ⟨s, o⟩ := by
  have hpos : 0 < s := by
    rcases hs with ⟨k, rfl⟩
    exact Nat.two_pow_pos k
  have hhi : (⟨s, o + s⟩ : Block) ∉ F ∪ A := fun hc =>
    hh.not_has hc (x := o + s) (by simp only [Block.Has]; omega) (by simp only [Block.Has]; omega)
  have hlo : (⟨s, o⟩ : Block) ∉ F ∪ A := fun hc =>
    hh.not_has hc (x := o) (by simp only [Block.Has]; omega) (by simp only [Block.Has]; omega)
  refine ⟨?_, ?_, ?_, fun hc => hlo (.inr hc)⟩
  · have htiling := hh.tiling.split (.inl rfl) hs
    have heq : (insert ⟨2 * s, o⟩ (F ∪ A) \ {⟨2 * s, o⟩}) ∪ {⟨s, o⟩, ⟨s, o + s⟩} =
        insert (⟨s, o⟩ : Block) (insert ⟨s, o + s⟩ F ∪ A) := by
      ext c
      have hparent : c ∈ F ∪ A → c ≠ ⟨2 * s, o⟩ := by
        rintro (hc | hc) rfl
        · exact hh.notFree hc
        · exact hh.notUsed hc
      simp only [Set.mem_union, Set.mem_sdiff, Set.mem_insert_iff] at hparent ⊢
      tauto
    rwa [heq] at htiling
  · rintro c (rfl | hc)
    · exact fun hc => hhi (.inr hc)
    · exact hh.disjoint c hc
  · rintro (heq | hc)
    · have := congrArg Block.off heq
      simp only at this
      omega
    · exact hlo (.inl hc)

/-- Merge the hole with its free buddy. -/
theorem Hole.merge (hh : Hole n F A h) (hb : b ∈ F)
    (hpair : (h = ⟨s, o⟩ ∧ b = ⟨s, o + s⟩) ∨ (h = ⟨s, o + s⟩ ∧ b = ⟨s, o⟩))
    (halign : 2 * s ∣ o) : Hole n (F \ {b}) A ⟨2 * s, o⟩ := by
  have hpos : 0 < s := by
    have := (hh.tiling.dyadic h (.inl rfl)).pos
    rcases hpair with ⟨rfl, _⟩ | ⟨rfl, _⟩ <;> exact this
  have hset : ({⟨s, o⟩, ⟨s, o + s⟩} : Set Block) = {h, b} := by
    rcases hpair with ⟨rfl, rfl⟩ | ⟨rfl, rfl⟩
    · rfl
    · exact Set.pair_comm _ _
  -- the merged block covers the first address of the hole
  have hparent : (⟨2 * s, o⟩ : Block) ∉ F ∪ A := by
    intro hc
    have hhx : h.Has h.off := by
      have := (hh.tiling.dyadic h (.inl rfl)).pos
      simp only [Block.Has]
      omega
    refine hh.not_has hc ?_ hhx
    rcases hpair with ⟨rfl, _⟩ | ⟨rfl, _⟩ <;> simp only [Block.Has] <;> omega
  have hmem : ∀ c, c ∈ ({⟨s, o⟩, ⟨s, o + s⟩} : Set Block) → c ∈ insert h (F ∪ A) := by
    rw [hset]
    rintro c (rfl | rfl)
    · exact .inl rfl
    · exact .inr (.inl hb)
  refine ⟨?_, fun c hc => hh.disjoint c hc.1, fun hc => hparent (.inl hc.1),
    fun hc => hparent (.inr hc)⟩
  have htiling := hh.tiling.merge (hmem _ (by simp)) (hmem _ (by simp)) halign
  have heq : (insert h (F ∪ A) \ {⟨s, o⟩, ⟨s, o + s⟩}) ∪ {⟨2 * s, o⟩} =
      insert (⟨2 * s, o⟩ : Block) (F \ {b} ∪ A) := by
    rw [hset]
    ext c
    have hfree : c ∈ F → c ≠ h := fun hc heq => hh.notFree (heq ▸ hc)
    have hused : c ∈ A → c ≠ h ∧ c ≠ b := fun hc =>
      ⟨fun heq => hh.notUsed (heq ▸ hc), fun heq => hh.disjoint b hb (heq ▸ hc)⟩
    simp only [Set.mem_union, Set.mem_sdiff, Set.mem_insert_iff]
    tauto
  rwa [heq] at htiling

/-- Doubling the arena gives one more free block. -/
theorem Partition.grow (hp : Partition n F A) (hn : ∃ k, n = 2 ^ k) :
    Partition (2 * n) (insert ⟨n, n⟩ F) A where
  tiling := by
    rw [Set.insert_union]
    exact hp.tiling.grow hn
  disjoint := by
    rintro c (rfl | hc)
    · intro hcA
      have := hp.tiling.le (.inr hcA)
      have hpos := (hp.tiling.dyadic _ (.inr hcA)).pos
      simp only at this hpos
      omega
    · exact hp.disjoint c hc

/-- A fresh arena is one free block. -/
theorem partition_single (hn : ∃ k, n = 2 ^ k) : Partition n {⟨n, 0⟩} ∅ where
  tiling := by
    have hempty : Tiling 0 ∅ := ⟨by simp, by simp, by simp⟩
    simpa using hempty.replace (Nat.zero_le n) ∅ {⟨n, 0⟩} subset_rfl
      (by rintro b rfl; exact ⟨hn, dvd_zero n⟩) (by simp [Block.Has]) (by simp)
  disjoint := by simp

end

end SciDB.Buddy
