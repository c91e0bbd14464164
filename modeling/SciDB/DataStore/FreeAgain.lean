import SciDB.DataStore.Session

/-!
# Freeing a block again

After a crash a block may be freed that is free already; `freeChunk` looks for a larger
free block around it and otherwise puts it on its list.  A ledger keeps, along a run, the
blocks that were freed and of which no part was handed out since.

Main results:

- Theorem {lit}`Recorded.step`: each of them stays inside one free block.
- Theorem {lit}`freeAgain_iff`: freeing it again is harmless, unless it is on its free
  list together with its buddy.
-/

namespace SciDB.DataStore

open Buckets Buddy Runs List

variable {k off : Nat} {fl fl' : Freelists}

/-- Merging leaves the free blocks and the one that is freed inside free blocks, and does
not touch smaller ones. -/
theorem addToFreelist_inside {levels : Nat} (hk : k ≤ 63) (hoff : 2 ^ k ∣ off)
    (h : addToFreelist levels (2 ^ k) off fl = .ok fl') :
    (∀ b, Inside (insert ⟨2 ^ k, off⟩ (freeBlocks fl)) b → Inside (freeBlocks fl') b) ∧
      ∀ b ∈ freeBlocks fl, b.size < 2 ^ k → b ∈ freeBlocks fl' := by
  induction levels generalizing k off fl with
  | zero => cases h
  | succ levels ih =>
    have hlt : k ≤ 62 := by
      by_contra hlt
      obtain rfl : k = 63 := by omega
      rw [addToFreelist, require_eq_ok, require_eq_ok, require_eq_ok] at h
      exact h.2.2.1 rfl
    rw [addToFreelist_eq hlt hoff] at h
    split at h
    · have hpair := buddyOff_pair (Nat.two_pow_pos k) hoff
      rcases ih (by omega) (by
        rw [ancestorOff_eq, ← pow_succ']
        exact Nat.dvd_mul_right _ _) h with ⟨hinside, hsmall⟩
      rw [freeBlocks_remove] at hinside hsmall
      refine ⟨?_, ?_⟩
      · rintro b ⟨c, hc, hlow, hhigh⟩
        apply hinside
        by_cases hc' : c = ⟨2 ^ k, off⟩ ∨ c = ⟨2 ^ k, buddyOff (2 ^ k) off⟩
        · refine ⟨_, .inl rfl, ?_⟩
          rcases hc' with rfl | rfl <;> simp only at hlow hhigh hpair ⊢ <;> omega
        · rw [not_or] at hc'
          exact ⟨c, .inr ⟨hc.resolve_left hc'.1, hc'.2⟩, hlow, hhigh⟩
      · intro b hb hsize
        refine hsmall b ⟨hb, ?_⟩ (by omega)
        rintro rfl
        exact lt_irrefl _ hsize
    · cases h
      rw [freeBlocks_add]
      exact ⟨fun b hb => hb, fun b hb _ => .inr hb⟩

/-! ## The ledger -/

/-- The blocks have no address in common. -/
def Allocation.apart (a a' : Allocation) : Bool :=
  a.off + a.size ≤ a'.off ∨ a'.off + a'.size ≤ a.off

/-- A session, with the blocks that were freed and of which no part was allocated since. -/
structure Ledger extends Session where
  freed : List Allocation

def freedAfter (freed : List Allocation) : Event → List Allocation
  | .freeChunk a => a :: freed
  | _ => freed

def ledgerStep (cfg : Config) (l : Ledger) (e : Event) : Except Fault Ledger := do
  let s ← step cfg l.toSession e
  return ⟨s, (freedAfter l.freed e).filter fun a => s.allocated.all a.apart⟩

/-- Each block of the ledger lies inside one free block. -/
structure Recorded (l : Ledger) : Prop where
  inv : Inv l.toSession
  freed : ∀ a ∈ l.freed, (a.block.Dyadic ∧ a.size ≤ 2 ^ 62) ∧
    Inside (freeBlocks l.store.freelists) a.block

variable {cfg : Config} {l : Ledger} {s : Store}

variable {s' : Store} {A : Set Block} {size : Nat}

/-- Without a larger free block around it, a block is added. -/
theorem freeChunk_adds (hparent : isParentBlockFree s.freelists off size = false)
    (h : freeChunk cfg s off size = .ok s') :
    addToFreelist 65 size off s.freelists = .ok s'.freelists := by
  rw [freeChunk_eq cfg hparent, bind_eq_ok] at h
  rcases h with ⟨fl', hadd, hrest⟩
  cases (require_eq_ok.mp hrest).2
  rw [hadd]
  cases cfg.punchHoles <;> simp [calcLargestFreeChunk, checkFileOpen_eq]

theorem freeChunk_inside {b : Block} (h : Allocator s A) (hb : b ∈ A)
    (hfree : freeChunk cfg s b.off b.size = .ok s') (c : Block)
    (hc : Inside (insert b (freeBlocks s.freelists)) c) : Inside (freeBlocks s'.freelists) c := by
  have hdyadic := h.partition.tiling.dyadic b (.inr hb)
  have hle := h.partition.tiling.le (.inr hb)
  have hadd := freeChunk_adds (isParentBlockFree_eq_false h.partition (.inr hb)) hfree
  rcases b with ⟨size, off⟩
  rcases hdyadic.1 with ⟨k, rfl⟩
  exact (addToFreelist_inside (exponent_le (by simp only at hle; omega)
    h.allocatedSize_le) hdyadic.2 hadd).1 c hc

theorem Recorded.step (h : Recorded l) {e : Event} (hlegal : Legal l.toSession e)
    (hfits : Fits cfg l.toSession e) : ∃ l', ledgerStep cfg l e = .ok l' ∧ Recorded l' := by
  rcases h.inv.step hlegal hfits with ⟨s', hs', hinv⟩
  refine ⟨_, by rw [ledgerStep, hs']; rfl, hinv, ?_⟩
  intro a ha
  rw [mem_filter, all_eq_true] at ha
  cases e with
  | allocateSpace n =>
    rcases allocateSpace_spec h.inv.allocator hlegal hfits with
      ⟨store, fl', m, ret, k, halloc, hstore, _, _, _, _, hinside, _⟩
    rw [DataStore.step, halloc] at hs'
    cases hs'
    rcases h.freed a ha.1 with ⟨hdyadic, hin⟩
    refine ⟨hdyadic, ?_⟩
    rw [hstore]
    apply hinside _ hdyadic.1 hin
    have hapart := ha.2 _ mem_cons_self
    simp only [Allocation.apart, decide_eq_true_eq] at hapart
    simp only [Block.Has, Allocation.block]
    omega
  | freeChunk a' =>
    rcases bind_eq_ok.mp hs' with ⟨store, hstore, hs'⟩
    cases hs'
    have hmem := Inv.mem_used hlegal
    have hkeep := freeChunk_inside h.inv.allocator hmem hstore
    rcases mem_cons.mp ha.1 with rfl | ha
    · rcases MergeStops.of_lt h.inv.allocator hmem hfits with ⟨j, hj, hle, -⟩
      exact ⟨⟨h.inv.allocator.partition.tiling.dyadic _ (.inr hmem),
        hle.trans (Nat.pow_le_pow_right (by norm_num) hj)⟩,
        hkeep _ ⟨_, .inl rfl, le_rfl, le_rfl⟩⟩
    · rcases h.freed a ha with ⟨hdyadic, c, hc, hac⟩
      exact ⟨hdyadic, hkeep _ ⟨c, .inr hc, hac⟩⟩
  | writeData a' len =>
    cases hs'
    simpa [writeData, checkFileOpen_eq] using h.freed a ha.1
  | flush =>
    rw [DataStore.step, Inv.flush_eq h.inv.dirty_open] at hs'
    cases hs'
    exact h.freed a ha.1

/-! ## Freeing again -/

/-- Freeing the block leaves the free addresses as they are and the free blocks apart. -/
def Harmless (cfg : Config) (s : Store) (off size : Nat) : Prop :=
  ∃ s', freeChunk cfg s off size = .ok s' ∧
    (∀ x, (∃ b ∈ freeBlocks s'.freelists, b.Has x) ↔ ∃ b ∈ freeBlocks s.freelists, b.Has x) ∧
    (∀ b ∈ freeBlocks s'.freelists, ∀ c ∈ freeBlocks s'.freelists, b ≠ c → Apart b c) ∧
    verifyFreelistInternal s'.freelists = true

theorem harmless_of_eq (h : Allocator s A)
    (hfree : freeChunk cfg s off size = .ok s')
    (heq : freeBlocks s'.freelists = freeBlocks s.freelists) : Harmless cfg s off size := by
  have hp := h.partition
  rw [← heq] at hp
  refine ⟨s', hfree, fun x => by rw [heq], ?_, verifyFreelistInternal_eq_true hp⟩
  rintro b hb c hc hne x ⟨hbx, hcx⟩
  exact hne (hp.tiling.unique b (.inl hb) c (.inl hc) x hbx hcx)

/-- Freeing a free block again is harmless, unless both it and its buddy are on their free
list. -/
theorem harmless_iff (h : Allocator s A) (hdyadic : (⟨size, off⟩ : Block).Dyadic)
    (hsize : size ≤ 2 ^ 62) (hin : Inside (freeBlocks s.freelists) ⟨size, off⟩) :
    Harmless cfg s off size ↔
      ¬(Has s.freelists size off ∧ Has s.freelists size (buddyOff size off)) := by
  have hp := h.partition
  have hpos := hdyadic.pos
  by_cases hself : Has s.freelists size off
  · have hparent := isParentBlockFree_eq_false hp (b := ⟨size, off⟩) (.inl hself)
    rcases hdyadic.1 with ⟨k, rfl⟩
    have hk : k ≤ 62 := (Nat.pow_le_pow_iff_right one_lt_two).mp hsize
    have hadd : addToFreelist 65 (2 ^ k) off s.freelists = _ := addToFreelist_eq hk hdyadic.2
    simp only [hself, true_and]
    by_cases hbuddy : Has s.freelists (2 ^ k) (buddyOff (2 ^ k) off)
    · -- the block stays on its list, and the merged one around it is added
      refine iff_of_false ?_ (not_not.mpr hbuddy)
      rintro ⟨s', hs', -, hapart, -⟩
      rw [if_pos hbuddy, freeChunk_adds hparent hs'] at hadd
      have hpair := buddyOff_pair hpos hdyadic.2
      simp only at hpair hpos
      rcases addToFreelist_inside (by omega) (by
        rw [ancestorOff_eq, ← pow_succ']
        exact Nat.dvd_mul_right _ _) hadd.symm with ⟨hinside, hsmall⟩
      rw [freeBlocks_remove] at hinside hsmall
      rcases hinside _ ⟨_, .inl rfl, le_rfl, le_rfl⟩ with ⟨d, hd, hlow, hhigh⟩
      have hmem := hsmall ⟨2 ^ k, off⟩ ⟨hself, by simp; omega⟩ (by simp only; omega)
      refine hapart _ hmem d hd ?_ off ⟨⟨le_rfl, by simp only; omega⟩, ?_⟩
      · rintro rfl
        simp only at hlow hhigh
        omega
      · simp only [Block.Has] at hlow hhigh ⊢
        omega
    · rw [if_neg hbuddy] at hadd
      have heq : freeBlocks (add s.freelists (2 ^ k) off) = freeBlocks s.freelists := by
        rw [freeBlocks_add]
        exact Set.insert_eq_of_mem hself
      have hfree := freeChunk_eq cfg hparent
      rw [hadd] at hfree
      refine iff_of_true (harmless_of_eq h (hfree.trans (require_pos ?_ _ _)) ?_) hbuddy
      · exact fun _ => verifyFreelistInternal_eq_true (heq ▸ hp)
      · cases cfg.punchHoles <;> simpa [calcLargestFreeChunk, checkFileOpen_eq] using heq
  · -- a larger free block around it is found
    rcases hin with ⟨⟨size', off'⟩, hc, hlow, hhigh⟩
    simp only at hlow hhigh hpos
    have hlt : size < size' := by
      by_contra hge
      obtain ⟨rfl, rfl⟩ : size = size' ∧ off = off' := by omega
      exact hself hc
    have hparent : isParentBlockFree s.freelists off size = true := by
      rcases (hp.tiling.dyadic _ (.inl hc)).2 with ⟨q, hq⟩
      rcases hc with ⟨offsets, hoffsets, hmem⟩
      have hmod : off - off % size' = off' := by
        obtain ⟨r, rfl⟩ := Nat.exists_eq_add_of_le hlow
        simp only at hq
        rw [hq, Nat.mul_add_mod, Nat.mod_eq_of_lt (by omega)]
        omega
      rw [isParentBlockFree, any_eq_true]
      exact ⟨(size', offsets), Std.ExtTreeMap.mem_toList_iff_getElem?_eq_some.mpr hoffsets,
        by simp [hlt, hmod, hmem]⟩
    have hfree : freeChunk cfg s off size =
        .ok (calcLargestFreeChunk (invalidateFreelistFile s)) := by
      rw [freeChunk]
      simp only [invalidateFreelistFile_eq, hparent]
      rfl
    refine iff_of_true (harmless_of_eq h hfree ?_) fun h => hself h.1
    simp [calcLargestFreeChunk, invalidateFreelistFile_eq]

/-- In every run from a new store whose sizes stay within 64 bits, freeing again a block
that was freed and of which no part was allocated since leaves the free addresses as they
are and the free blocks apart, unless both it and its buddy are on their free list. -/
theorem freeAgain_iff (cfg : Config) (freelistFile : Option (List UInt8)) :
    ∃ store, construct cfg none freelistFile = .ok store ∧
      ∀ events, Along (ledgerStep cfg) (fun l e => Legal l.toSession e ∧ Fits cfg l.toSession e)
          ⟨⟨store, []⟩, []⟩ events →
        ∃ l, runM (ledgerStep cfg) ⟨⟨store, []⟩, []⟩ events = .ok l ∧
          ∀ a ∈ l.freed, Harmless cfg l.store a.off a.size ↔
            ¬(Has l.store.freelists a.size a.off ∧
              Has l.store.freelists a.size (buddyOff a.size a.off)) := by
  rcases inv_new cfg freelistFile with ⟨store, hnew, hinv⟩
  refine ⟨store, hnew, fun events halong => ?_⟩
  have hrecorded : Recorded ⟨⟨store, []⟩, []⟩ := ⟨hinv, by simp⟩
  rcases runM_keeps (fun l e h hok => h.step hok.1 hok.2) hrecorded halong with ⟨l, hrun, hl⟩
  refine ⟨l, hrun, fun a ha => ?_⟩
  rcases hl.freed a ha with ⟨⟨hdyadic, hsize⟩, hin⟩
  exact harmless_iff hl.inv.allocator hdyadic hsize hin

/-- Allocate and free a block, and let the file be doubled for a larger one. -/
def freeAndGrow : List Event :=
  [.allocateSpace 1, .freeChunk ⟨0, 2 ^ 30, 1⟩, .allocateSpace (2 ^ 30)]

/-- The first block is free beside its buddy; freed again, it is on its list and also part
of a larger free block. -/
theorem freeAgain_overlaps : (do
      let store ← construct bigBlocks none none
      let l ← runM (ledgerStep bigBlocks) ⟨⟨store, []⟩, []⟩ freeAndGrow
      let s ← freeChunk bigBlocks l.store 0 (2 ^ 30)
      .ok (decide (Along (ledgerStep bigBlocks) (fun l e => Legal l.toSession e ∧
          Fits bigBlocks l.toSession e) ⟨⟨store, []⟩, []⟩ freeAndGrow ∧
          (⟨0, 2 ^ 30, 1⟩ : Allocation) ∈ l.freed),
        decide (Has s.freelists (2 ^ 30) 0 ∧ Has s.freelists (2 ^ 31) 0),
        verifyFreelistInternal s.freelists)) = .ok (true, true, false) := by
  decide +kernel

end SciDB.DataStore
