import SciDB.DataStore.Allocator

/-!
# Runs of a data store

A session is a data store together with the blocks its users hold.  The users
allocate and free blocks, write to them and flush the store, in any order; they
free only blocks they hold and write only within them.

Main results:

- Theorem {lit}`Inv.step`: every such call succeeds and keeps the allocated and
  free blocks a partition of the space, as long as the sizes stay within 64 bits.
- Theorem {lit}`buddy_allocator_safe`: so does every run from a new store.
-/

namespace SciDB.DataStore

open Buckets Buddy Runs List

/-- A block returned by `allocateSpace`, with the size that was asked for. -/
structure Allocation where
  off : Nat
  size : Nat
  requested : Nat
deriving DecidableEq, Repr

def Allocation.block (a : Allocation) : Block :=
  ⟨a.size, a.off⟩

/-- A store and the blocks allocated in it. -/
structure Session where
  store : Store
  allocated : List Allocation

/-- The calls on a data store. -/
inductive Event where
  | allocateSpace (requestedSize : Nat)
  | writeData (a : Allocation) (len : Nat)
  | freeChunk (a : Allocation)
  | flush
deriving DecidableEq, Repr

/-- One call. -/
def step (cfg : Config) (s : Session) : Event → Except Fault Session
  | .allocateSpace n => do
      let (store, off, size) ← allocateSpace cfg s.store n
      return ⟨store, ⟨off, size, n⟩ :: s.allocated⟩
  | .writeData a len => .ok { s with store := writeData s.store a.off len }
  | .freeChunk a => do
      let store ← freeChunk cfg s.store a.off a.size
      return ⟨store, s.allocated.erase a⟩
  | .flush => do
      let store ← flush s.store
      return { s with store := store }

/-- What the users of a store promise: requests are below `2 ^ 62`, blocks are
freed once and with their size, and written within their size. -/
def Legal (s : Session) : Event → Prop
  | .allocateSpace n => n + headerSize ≤ 2 ^ 62
  | .writeData a len => a ∈ s.allocated ∧ headerSize + len ≤ a.size
  | .freeChunk a => a ∈ s.allocated
  | .flush => True

instance (s : Session) : (e : Event) → Decidable (Legal s e)
  | .allocateSpace n => inferInstanceAs (Decidable (n + headerSize ≤ 2 ^ 62))
  | .writeData a len => inferInstanceAs (Decidable (a ∈ s.allocated ∧ headerSize + len ≤ a.size))
  | .freeChunk a => inferInstanceAs (Decidable (a ∈ s.allocated))
  | .flush => isTrue trivial

/-- The sizes stay within 64 bits: the space is not doubled beyond `2 ^ 63`, and
the whole space of size `2 ^ 63` is not merged back into one block. -/
def Fits (cfg : Config) (s : Session) : Event → Prop
  | .allocateSpace n => GrowthFits cfg s.store n
  | .writeData _ _ => True
  | .freeChunk a => s.store.allocatedSize = 2 ^ 63 → MergeStops s.store.freelists a.size a.off
  | .flush => True

instance (cfg : Config) (s : Session) : (e : Event) → Decidable (Fits cfg s e)
  | .allocateSpace n => inferInstanceAs (Decidable (GrowthFits cfg s.store n))
  | .writeData _ _ => isTrue trivial
  | .freeChunk a => inferInstanceAs
      (Decidable (s.store.allocatedSize = 2 ^ 63 → MergeStops s.store.freelists a.size a.off))
  | .flush => isTrue trivial

/-! ## The invariant -/

/-- The allocated blocks. -/
def usedBlocks (allocated : List Allocation) : Set Block :=
  {b | ∃ a ∈ allocated, a.block = b}

theorem usedBlocks_cons (a : Allocation) (l : List Allocation) :
    usedBlocks (a :: l) = insert a.block (usedBlocks l) := by
  ext b
  simp [usedBlocks, eq_comm]

variable {a : Allocation}

theorem usedBlocks_erase {l : List Allocation}
    (h : (l.map Allocation.block).Nodup) (ha : a ∈ l) :
    usedBlocks (l.erase a) = usedBlocks l \ {a.block} := by
  ext b
  simp only [usedBlocks, (List.Nodup.of_map _ h).mem_erase_iff]
  constructor
  · rintro ⟨a', ⟨hne, ha'⟩, rfl⟩
    exact ⟨⟨a', ha', rfl⟩, fun heq => hne (inj_on_of_nodup_map h ha' ha heq)⟩
  · rintro ⟨⟨a', ha', rfl⟩, hne⟩
    exact ⟨a', ⟨fun heq => hne (heq ▸ rfl), ha'⟩, rfl⟩

/-- The invariant of a session. -/
structure Inv (s : Session) : Prop where
  allocator : Allocator s.store (usedBlocks s.allocated)
  nodup : (s.allocated.map Allocation.block).Nodup
  requested : ∀ a ∈ s.allocated, a.requested + headerSize ≤ a.size
  dirty_open : s.store.dirty → s.store.fileOpen

namespace Inv

variable {cfg : Config} {s : Session}

theorem mem_used (ha : a ∈ s.allocated) : a.block ∈ usedBlocks s.allocated :=
  ⟨a, ha, rfl⟩

theorem allocateSpace {n : Nat} (h : Inv s) (hn : n + headerSize ≤ 2 ^ 62)
    (hfits : GrowthFits cfg s.store n) :
    ∃ s', step cfg s (.allocateSpace n) = .ok s' ∧ Inv s' := by
  rcases allocateSpace_spec h.allocator hn hfits with
    ⟨store, fl', m, ret, k, halloc, hstore, hnk, _, _, hfresh, _, hinv⟩
  refine ⟨⟨store, ⟨ret, 2 ^ k, n⟩ :: s.allocated⟩, ?_, ?_, ?_, ?_, ?_⟩
  · rw [step, halloc]
    rfl
  · rw [usedBlocks_cons]
    exact hinv
  · rw [map_cons, nodup_cons]
    refine ⟨?_, h.nodup⟩
    intro hmem
    rcases mem_map.mp hmem with ⟨a, ha, heq⟩
    exact hfresh ⟨a, ha, heq⟩
  · exact forall_mem_cons.mpr ⟨hnk, h.requested⟩
  · rw [hstore, invalidateFreelistFile_eq]
    exact h.dirty_open

theorem freeChunk (h : Inv s) (ha : a ∈ s.allocated)
    (hfits : s.store.allocatedSize = 2 ^ 63 → MergeStops s.store.freelists a.size a.off) :
    ∃ s', step cfg s (.freeChunk a) = .ok s' ∧ Inv s' := by
  rcases freeChunk_spec cfg h.allocator (mem_used ha) hfits with
    ⟨store, t, fl', hfree, ht, hstore, hinv⟩
  refine ⟨⟨store, s.allocated.erase a⟩, ?_, ?_, ?_, ?_, ?_⟩
  · rw [step, show DataStore.freeChunk cfg s.store a.off a.size = .ok store from hfree]
    rfl
  · rw [usedBlocks_erase h.nodup ha]
    exact hinv
  · exact h.nodup.sublist (erase_sublist.map _)
  · intro a' ha'
    exact h.requested a' (mem_of_mem_erase ha')
  · rw [hstore, ht, invalidateFreelistFile_eq]
    cases cfg.punchHoles
    · exact h.dirty_open
    · simp [checkFileOpen_eq, calcLargestFreeChunk]

theorem writeData (h : Inv s) (a : Allocation) (len : Nat) :
    ∃ s', step cfg s (.writeData a len) = .ok s' ∧ Inv s' := by
  refine ⟨_, rfl, ?_, h.nodup, h.requested, ?_⟩
  · apply h.allocator.congr <;> simp [DataStore.writeData, checkFileOpen_eq]
  · simp [DataStore.writeData, checkFileOpen_eq]

theorem flush_eq {store : Store} (h : store.dirty → store.fileOpen) :
    DataStore.flush store = .ok
      { store with
        dirty := false
        fldirty := store.fldirty && !store.isFileCreated
        freelistFile := if store.fldirty && store.isFileCreated then
          some (freelistBytes store.freelists) else store.freelistFile } := by
  rw [DataStore.flush, require_pos h]
  rcases store with ⟨created, _, _, fldirty, _⟩
  cases created <;> cases fldirty <;> rfl

theorem flush (h : Inv s) : ∃ s', step cfg s .flush = .ok s' ∧ Inv s' := by
  rw [step, flush_eq h.dirty_open]
  refine ⟨_, rfl, ?_, h.nodup, h.requested, by simp⟩
  exact h.allocator.congr rfl rfl rfl

/-- Every call succeeds and keeps the invariant. -/
theorem step (h : Inv s) {e : Event} (hlegal : Legal s e) (hfits : Fits cfg s e) :
    ∃ s', step cfg s e = .ok s' ∧ Inv s' := by
  cases e with
  | allocateSpace n => exact h.allocateSpace hlegal hfits
  | writeData a len => exact h.writeData a len
  | freeChunk a => exact h.freeChunk hlegal hfits
  | flush => exact h.flush

end Inv

/-- A new store has no allocated blocks. -/
theorem inv_new (cfg : Config) (freelistFile : Option (List UInt8)) :
    ∃ store, construct cfg none freelistFile = .ok store ∧ Inv ⟨store, []⟩ := by
  rcases construct_new cfg freelistFile with ⟨store, size, hnew, _, _, rfl, hinv⟩
  refine ⟨_, hnew, ?_, nodup_nil, by simp, by simp⟩
  have hempty : usedBlocks [] = ∅ := by simp [usedBlocks]
  rw [hempty]
  exact hinv

/-! ## Safety -/

/-- Two blocks without a common address. -/
def Apart (b c : Block) : Prop :=
  ∀ x, ¬ (b.Has x ∧ c.Has x)

/-- Safety of the buddy allocator. -/
structure BuddySafe (s : Session) : Prop where
  large_enough : ∀ a ∈ s.allocated, a.requested + headerSize ≤ a.size
  dyadic : ∀ a ∈ s.allocated, (∃ k, a.size = 2 ^ k) ∧ a.size ∣ a.off
  inside : ∀ a ∈ s.allocated, a.off + a.size ≤ s.store.allocatedSize
  allocated_apart : s.allocated.Pairwise fun a a' => Apart a.block a'.block
  free_apart_allocated : ∀ a ∈ s.allocated, ∀ b ∈ freeBlocks s.store.freelists, Apart a.block b
  free_apart : ∀ b ∈ freeBlocks s.store.freelists, ∀ c ∈ freeBlocks s.store.freelists,
    b ≠ c → Apart b c
  covers : ∀ x, x < s.store.allocatedSize ↔
    (∃ a ∈ s.allocated, a.block.Has x) ∨ ∃ b ∈ freeBlocks s.store.freelists, b.Has x
  no_empty_bucket : NoEmpty s.store.freelists
  largest_free : s.store.largestFreeChunk = largestKey s.store.freelists

theorem Inv.buddySafe {s : Session} (h : Inv s) : BuddySafe s := by
  have htiling := h.allocator.partition.tiling
  have hdisjoint := h.allocator.partition.disjoint
  refine ⟨h.requested, ?_, ?_, ?_, ?_, ?_, ?_, h.allocator.noEmpty, h.allocator.largest⟩
  · exact fun a ha => htiling.dyadic a.block (.inr (Inv.mem_used ha))
  · exact fun a ha => htiling.le (.inr (Inv.mem_used ha))
  · refine (pairwise_map.mp h.nodup).imp_of_mem ?_
    rintro a a' ha ha' hne x ⟨hx, hx'⟩
    exact hne (htiling.unique _ (.inr (Inv.mem_used ha)) _ (.inr (Inv.mem_used ha')) x hx hx')
  · rintro a ha b hb x ⟨hx, hx'⟩
    have heq := htiling.unique _ (.inr (Inv.mem_used ha)) _ (.inl hb) x hx hx'
    exact hdisjoint b hb (heq ▸ Inv.mem_used ha)
  · rintro b hb c hc hne x ⟨hx, hx'⟩
    exact hne (htiling.unique _ (.inl hb) _ (.inl hc) x hx hx')
  · intro x
    rw [htiling.covers]
    constructor
    · rintro ⟨b, hb | ⟨a, ha, rfl⟩, hx⟩
      · exact .inr ⟨b, hb, hx⟩
      · exact .inl ⟨a, ha, hx⟩
    · rintro (⟨a, ha, hx⟩ | ⟨b, hb, hx⟩)
      · exact ⟨a.block, Or.inr (Inv.mem_used ha), hx⟩
      · exact ⟨b, Or.inl hb, hx⟩

/-- In every run from a new store whose sizes stay within 64 bits every call
returns, and the allocated and free blocks partition the space. -/
theorem buddy_allocator_safe (cfg : Config) (freelistFile : Option (List UInt8)) :
    ∃ store, construct cfg none freelistFile = .ok store ∧
      ∀ events, Along (step cfg) (fun s e => Legal s e ∧ Fits cfg s e) ⟨store, []⟩ events →
        ∃ s, runM (step cfg) ⟨store, []⟩ events = .ok s ∧ BuddySafe s := by
  rcases inv_new cfg freelistFile with ⟨store, hnew, hinv⟩
  refine ⟨store, hnew, ?_⟩
  intro events halong
  rcases runM_keeps (fun s e h hok => h.step hok.1 hok.2) hinv halong with ⟨s, hrun, hs⟩
  exact ⟨s, hrun, hs.buddySafe⟩

/-- A store whose smallest block has `2 ^ 30` bytes. -/
def bigBlocks : Config := ⟨2 ^ 30, false, by norm_num, by norm_num⟩

/-- Allocate, write, grow, flush and free. -/
def growAndFree : List Event :=
  [.allocateSpace 1000, .writeData ⟨0, 2 ^ 30, 1000⟩ 1000, .allocateSpace (2 ^ 31), .flush,
    .freeChunk ⟨0, 2 ^ 30, 1000⟩]

theorem buddy_allocator_safe_growAndFree :
    ∃ store s, construct bigBlocks none none = .ok store ∧
      Along (step bigBlocks) (fun s e => Legal s e ∧ Fits bigBlocks s e) ⟨store, []⟩ growAndFree ∧
      runM (step bigBlocks) ⟨store, []⟩ growAndFree = .ok s ∧ BuddySafe s := by
  have heval : (do
      let store ← construct bigBlocks none none
      .ok (decide (Along (step bigBlocks) (fun s e => Legal s e ∧ Fits bigBlocks s e)
        ⟨store, []⟩ growAndFree))) = .ok true := by
    decide +kernel
  rcases buddy_allocator_safe bigBlocks none with ⟨store, hstore, hsafe⟩
  rcases bind_eq_ok.mp heval with ⟨store', hstore', heval⟩
  rw [hstore] at hstore'
  cases hstore'
  have halong := of_decide_eq_true (Except.ok.inj heval)
  rcases hsafe growAndFree halong with ⟨s, hs, hsafe⟩
  exact ⟨store, s, hstore, halong, hs, hsafe⟩

/-- Two requests for blocks of `2 ^ 62` bytes. -/
def growTwice : List Event :=
  [.allocateSpace (2 ^ 62 - 16), .allocateSpace (2 ^ 62 - 16)]

/-- Grow the space to `2 ^ 63` bytes and free all of it. -/
def mergeWhole : List Event :=
  [.allocateSpace (2 ^ 62 - 16), .freeChunk ⟨2 ^ 62, 2 ^ 62, 2 ^ 62 - 16⟩, .allocateSpace 1,
    .freeChunk ⟨0, 2 ^ 30, 1⟩]

/-- Beyond 64 bits the allocator is not safe.  With two blocks of `2 ^ 62` bytes
the size of the space wraps around to 0; and when a space of `2 ^ 63` bytes
becomes free again as a whole, merging divides by zero. -/
theorem buddy_allocator_wraps :
    ∃ store, construct bigBlocks none none = .ok store ∧
      (Along (step bigBlocks) Legal ⟨store, []⟩ growTwice ∧
        ∃ s, runM (step bigBlocks) ⟨store, []⟩ growTwice = .ok s ∧ ¬ BuddySafe s) ∧
      Along (step bigBlocks) Legal ⟨store, []⟩ mergeWhole ∧
        runM (step bigBlocks) ⟨store, []⟩ mergeWhole = .error .divisionByZero := by
  have heval : (do
      let store ← construct bigBlocks none none
      let s ← runM (step bigBlocks) ⟨store, []⟩ growTwice
      .ok (s.store.allocatedSize, s.allocated,
        decide (Along (step bigBlocks) Legal ⟨store, []⟩ growTwice),
        decide (Along (step bigBlocks) Legal ⟨store, []⟩ mergeWhole),
        (runM (step bigBlocks) ⟨store, []⟩ mergeWhole).map Session.allocated)) =
      .ok (0, [⟨2 ^ 63, 2 ^ 62, 2 ^ 62 - 16⟩, ⟨2 ^ 62, 2 ^ 62, 2 ^ 62 - 16⟩], true, true,
        .error .divisionByZero) := by
    decide +kernel
  rcases bind_eq_ok.mp heval with ⟨store, hstore, heval⟩
  rcases bind_eq_ok.mp heval with ⟨s, hs, heval⟩
  simp only [Except.ok.injEq, Prod.mk.injEq, decide_eq_true_eq] at heval
  rcases heval with ⟨hsize, hallocated, hgrow, hmerge, hfault⟩
  refine ⟨store, hstore, ⟨hgrow, s, hs, ?_⟩, hmerge, ?_⟩
  · intro hsafe
    have := hsafe.inside ⟨2 ^ 62, 2 ^ 62, 2 ^ 62 - 16⟩ (by simp [hallocated])
    norm_num [hsize] at this
  · cases hrun : runM (step bigBlocks) ⟨store, []⟩ mergeWhole with
    | error f =>
      rw [hrun] at hfault
      cases hfault
      rfl
    | ok s' =>
      rw [hrun] at hfault
      cases hfault

end SciDB.DataStore
