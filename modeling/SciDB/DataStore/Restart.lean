import SciDB.DataStore.Session

/-!
# Restarting a data store

A store that is closed after a flush is opened again on its two files.  Whether
the free space survives depends on the order of the calls: the free lists are
written only if the data file existed when they last changed, and the data file
has the size of the space only if it was opened after the space last grew.

Main results:

- Theorem {lit}`writable`: the free lists of an allocator fit the file format.
- Theorem {lit}`restart_keeps_free_space`: if both conditions hold at the last
  flush, the reopened store has the same free lists and size, and goes on safely.
-/

namespace SciDB.DataStore

open Buckets Buddy Runs List

/-! ## The free lists can be written -/

section

variable {s : Store} {A : Set Block}

variable (h : Allocator s A)

include h

theorem Allocator.off_lt {k off : Nat} (hk : Has s.freelists k off) : off + k ≤ 2 ^ 63 :=
  (h.partition.tiling.le (b := ⟨k, off⟩) (Or.inl hk)).trans h.allocatedSize_le

/-- There are at most 64 buckets. -/
theorem Allocator.size_le : s.freelists.size ≤ 64 := by
  have hnodup : s.freelists.keys.Nodup :=
    Std.ExtTreeMap.ordered_keys.imp fun hlt => (Nat.compare_eq_lt.mp hlt).ne
  have hsub : s.freelists.keys ⊆ (List.range 64).map (2 ^ ·) := by
    intro k hk
    rcases h.bucket_pow (Std.ExtTreeMap.mem_keys.mp hk) with ⟨l, hl, rfl, _⟩
    exact mem_map_of_mem (mem_range.mpr (by omega))
  have hle := (hnodup.subperm hsub).length_le
  rwa [Std.ExtTreeMap.length_keys] at hle

/-- A bucket holds at most `2 ^ 59` blocks: they are disjoint and have room for a
header, except for a few at the start of the space. -/
theorem Allocator.card_le {k : Nat} {bucket : Finset Nat} (hk : s.freelists[k]? = some bucket) :
    bucket.card ≤ 2 ^ 59 := by
  by_cases hsmall : k < headerSize
  · have hsub : bucket ⊆ Finset.range 17 := by
      intro off hoff
      have := h.small ⟨k, off⟩ ⟨bucket, hk, hoff⟩ hsmall
      simp only [headerSize] at this hsmall
      exact Finset.mem_range.mpr (by omega)
    have := Finset.card_le_card hsub
    rw [Finset.card_range] at this
    omega
  · have hsub : bucket ⊆ (Finset.range (2 ^ 59)).image (k * ·) := by
      intro off hoff
      have hhas : Has s.freelists k off := ⟨bucket, hk, hoff⟩
      have hle := h.off_lt hhas
      have hdvd : k ∣ off := (h.partition.tiling.dyadic ⟨k, off⟩ (.inl hhas)).2
      rcases hdvd with ⟨q, rfl⟩
      refine Finset.mem_image.mpr ⟨q, Finset.mem_range.mpr ?_, rfl⟩
      simp only [headerSize] at hsmall
      by_contra hq
      have := Nat.mul_le_mul (Nat.le_of_not_lt hsmall) (Nat.le_of_not_lt hq)
      omega
    have := (Finset.card_le_card hsub).trans Finset.card_image_le
    rwa [Finset.card_range] at this

/-- The free lists of an allocator fit the file format. -/
theorem Allocator.writable : Writable s.freelists where
  noEmpty := h.noEmpty
  size_lt := lt_of_le_of_lt h.size_le (by norm_num)
  key_lt := by
    intro key bucket hkey
    have hmem : key ∈ s.freelists := by
      rw [Std.ExtTreeMap.mem_iff_isSome_getElem?, hkey]
      rfl
    rcases h.bucket_pow hmem with ⟨_, _, _, hle⟩
    have := h.allocatedSize_le
    omega
  card_lt := by
    intro key bucket hkey
    have := h.card_le hkey
    omega
  off_lt := by
    intro key off hhas
    have := h.off_lt hhas
    omega

end

/-! ## What happened to the files -/

/-- What a session remembers about the order of its calls. -/
structure History where
  /-- The last `allocateSpace` or `freeChunk` ran before the data file existed. -/
  changedUncreated : Bool
  /-- The space grew while the data file was closed, and it has not been opened
  since. -/
  grownUnopened : Bool
deriving DecidableEq, Repr

/-- The history of a session in which nothing has been called yet. -/
def History.fresh : History := ⟨false, false⟩

/-- The history after a call in the given state. -/
def History.note (cfg : Config) (h : History) (s : Session) : Event → History
  | .allocateSpace n =>
    { changedUncreated := !s.store.isFileCreated
      grownUnopened := h.grownUnopened || (!s.store.fileOpen && decide (NoRoom cfg s.store n)) }
  | .writeData _ _ => { h with grownUnopened := false }
  | .freeChunk _ =>
    { changedUncreated := !s.store.isFileCreated
      grownUnopened := h.grownUnopened && !cfg.punchHoles }
  | .flush => h

/-- A call that also keeps the history. -/
def trackedStep (cfg : Config) (s : Session × History) (e : Event) :
    Except Fault (Session × History) := do
  let s' ← step cfg s.1 e
  return (s', s.2.note cfg s.1 e)

/-- Close a store and open it again on its files. -/
def restart (cfg : Config) (s : Session) : Except Fault Session := do
  let store ← construct cfg s.store.dataFile s.store.freelistFile
  return { s with store := store }

/-- How the files relate to the store. -/
structure Files (cfg : Config) (s : Store) (h : History) (allocated : List Allocation) : Prop where
  min_le : cfg.minAllocSize ≤ s.allocatedSize
  fldirty_created : s.fldirty → s.isFileCreated
  open_created : s.fileOpen → s.isFileCreated
  open_size : s.fileOpen → s.dataFile = some s.allocatedSize
  closed_size : s.isFileCreated → ¬ s.fileOpen →
    ∃ size ≤ s.allocatedSize, s.dataFile = some size ∧
      (h.grownUnopened = false → size = s.allocatedSize)
  uncreated : ¬ s.isFileCreated → s.dataFile = none
  /-- The free-list file is up to date unless marked as dirty. -/
  written : s.isFileCreated → ¬ s.fldirty → h.changedUncreated = false →
    s.freelistFile = some (freelistBytes s.freelists)
  /-- Before the first change nothing is allocated. -/
  untouched : ¬ s.isFileCreated → h.changedUncreated = false →
    allocated = [] ∧ s.allocatedSize = roundUpPowerOf2 cfg.minAllocSize ∧
      s.freelists = add ∅ s.allocatedSize 0

namespace Files

variable {cfg : Config} {s : Store} {h : History} {allocated : List Allocation}

/-- A change of the free lists marks their file as dirty, once the data file
exists; an open data file follows the size of the space. -/
theorem change (hf : Files cfg s h allocated) (h' : History) (fl' : Freelists)
    {size' : Nat} (frees' : Nat) (hle : s.allocatedSize ≤ size')
    (hchanged : h'.changedUncreated = !s.isFileCreated)
    (hgrown : h'.grownUnopened = false → ¬ s.fileOpen →
      h.grownUnopened = false ∧ s.allocatedSize = size') (allocated' : List Allocation) :
    Files cfg
      { invalidateFreelistFile s with
        freelists := fl'
        allocatedSize := size'
        frees := frees'
        dataFile := if s.fileOpen ∧ s.allocatedSize < size' then some size' else s.dataFile }
      h' allocated' := by
  rw [invalidateFreelistFile_eq]
  constructor
  · exact hf.min_le.trans hle
  · simp only [Bool.or_eq_true]
    exact fun hd => hd.elim hf.fldirty_created id
  · exact hf.open_created
  · simp only
    intro hopen
    by_cases hlt : s.allocatedSize < size'
    · rw [if_pos ⟨hopen, hlt⟩]
    · rw [if_neg (fun hc => hlt hc.2), hf.open_size hopen, le_antisymm hle (by omega)]
  · simp only
    intro hcreated hclosed
    rcases hf.closed_size hcreated hclosed with ⟨size, hsize, hdata, heq⟩
    refine ⟨size, hsize.trans hle, ?_, ?_⟩
    · rw [if_neg (fun hc => hclosed hc.1), hdata]
    · intro hgrown'
      rcases hgrown hgrown' hclosed with ⟨hnot, hsame⟩
      rw [heq hnot, hsame]
  · simp only
    intro hcreated
    rw [if_neg (fun hc => hcreated (hf.open_created hc.1)), hf.uncreated hcreated]
  · simp only [Bool.or_eq_true]
    exact fun hcreated hclean => absurd (.inr hcreated) hclean
  · simp only
    intro hcreated hno
    simp [hchanged, hcreated] at hno

/-- The cached size of the largest free block plays no role for the files. -/
theorem calcLargestFreeChunk (hf : Files cfg s h allocated) :
    Files cfg (calcLargestFreeChunk s) h allocated :=
  ⟨hf.min_le, hf.fldirty_created, hf.open_created, hf.open_size, hf.closed_size, hf.uncreated,
    hf.written, hf.untouched⟩

/-- Opening the data file gives it the size of the space. -/
theorem checkFileOpen_dataFile (hf : Files cfg s h allocated) :
    (checkFileOpen s).dataFile = some s.allocatedSize := by
  rw [checkFileOpen_eq]
  by_cases hopen : s.fileOpen
  · simp only [hopen, if_true]
    exact hf.open_size hopen
  · simp only [hopen, Bool.false_eq_true, if_false]
    by_cases hcreated : s.isFileCreated
    · rcases hf.closed_size hcreated hopen with ⟨size, hsize, hdata, _⟩
      rw [hdata, Option.getD_some, max_eq_right hsize]
    · rw [hf.uncreated hcreated, Option.getD_none, max_eq_right (Nat.zero_le _)]

theorem checkFileOpen (hf : Files cfg s h allocated)
    (hchanged : ¬ s.isFileCreated → h.changedUncreated = true) :
    Files cfg (checkFileOpen s) { h with grownUnopened := false } allocated := by
  have hdata := hf.checkFileOpen_dataFile
  rw [checkFileOpen_eq] at hdata ⊢
  have hcreated : (s.isFileCreated || !s.fileOpen) = true := by
    cases hopen : s.fileOpen
    · simp
    · simp [hf.open_created hopen]
  refine ⟨hf.min_le, fun _ => hcreated, fun _ => hcreated, fun _ => hdata, ?_, ?_, ?_, ?_⟩
  · exact fun _ hclosed => absurd rfl hclosed
  · exact fun hno => absurd hcreated hno
  · intro _ hclean hno
    by_cases hbefore : s.isFileCreated
    · exact hf.written hbefore hclean hno
    · rw [hchanged hbefore] at hno
      cases hno
  · exact fun hno => absurd hcreated hno

end Files

/-- The invariant of a session with its history. -/
structure Tracked (cfg : Config) (s : Session × History) : Prop where
  inv : Inv s.1
  files : Files cfg s.1.store s.2 s.1.allocated

namespace Tracked

variable {cfg : Config} {s : Session × History} {e : Event}

theorem of_step {s' : Session} (hstep : DataStore.step cfg s.1 e = .ok s')
    (hinv : Inv s') (hfiles : Files cfg s'.store (s.2.note cfg s.1 e) s'.allocated) :
    ∃ t, trackedStep cfg s e = .ok t ∧ Tracked cfg t := by
  refine ⟨(s', s.2.note cfg s.1 e), ?_, hinv, hfiles⟩
  rw [trackedStep, hstep]
  rfl

variable (h : Tracked cfg s) {a : Allocation}

include h

theorem allocateSpace {n : Nat} (hn : n + headerSize ≤ 2 ^ 62)
    (hfits : GrowthFits cfg s.1.store n) :
    ∃ t, trackedStep cfg s (.allocateSpace n) = .ok t ∧ Tracked cfg t := by
  rcases h.inv.allocateSpace hn hfits with ⟨s', hs', hinv⟩
  rcases allocateSpace_spec h.inv.allocator hn hfits with
    ⟨store, fl', m, ret, k, halloc, hstore, _, hle, hsame, _⟩
  have heq : s' = ⟨store, ⟨ret, 2 ^ k, n⟩ :: s.1.allocated⟩ := by
    rw [step, halloc] at hs'
    cases hs'
    rfl
  refine of_step hs' hinv ?_
  rw [heq, hstore]
  refine (h.files.change _ _ _ hle rfl ?_ _).calcLargestFreeChunk
  simp only [History.note, Bool.or_eq_false_iff, Bool.and_eq_false_iff, decide_eq_false_iff_not]
  rintro ⟨hgrown, hroom⟩ hclosed
  exact ⟨hgrown, hsame (hroom.resolve_left (by simpa using hclosed))⟩

theorem freeChunk (ha : a ∈ s.1.allocated)
    (hfits : s.1.store.allocatedSize = 2 ^ 63 → MergeStops s.1.store.freelists a.size a.off) :
    ∃ t, trackedStep cfg s (.freeChunk a) = .ok t ∧ Tracked cfg t := by
  rcases @Inv.freeChunk a cfg s.1 h.inv ha hfits with ⟨s', hs', hinv⟩
  rcases freeChunk_spec cfg h.inv.allocator (Inv.mem_used ha) hfits with
    ⟨store, t, fl', hfree, ht, hstore, _⟩
  have heq : s' = ⟨store, s.1.allocated.erase a⟩ := by
    rw [step, show DataStore.freeChunk cfg s.1.store a.off a.size = .ok store from hfree] at hs'
    cases hs'
    rfl
  refine of_step hs' hinv ?_
  rw [heq, hstore]
  apply Files.calcLargestFreeChunk
  have hcreated : t.isFileCreated = s.1.store.isFileCreated := by
    rw [ht, invalidateFreelistFile_eq]
  have hfiles : Files cfg t ⟨!s.1.store.isFileCreated, s.2.grownUnopened⟩
      (s.1.allocated.erase a) := by
    have hchange := h.files.change ⟨!s.1.store.isFileCreated, s.2.grownUnopened⟩ fl'
      (s.1.store.frees + 1) le_rfl rfl (fun hgrown _ => ⟨hgrown, rfl⟩) (s.1.allocated.erase a)
    simp only [lt_irrefl, and_false, if_false] at hchange
    rw [ht, invalidateFreelistFile_eq]
    rw [invalidateFreelistFile_eq] at hchange
    exact hchange
  cases hpunch : cfg.punchHoles
  · simpa [History.note, hpunch] using hfiles
  · simpa [History.note, hpunch] using hfiles.checkFileOpen (by simp [hcreated])

theorem writeData {len : Nat} (ha : a ∈ s.1.allocated)
    (hlen : headerSize + len ≤ a.size) :
    ∃ t, trackedStep cfg s (.writeData a len) = .ok t ∧ Tracked cfg t := by
  rcases @Inv.writeData cfg s.1 h.inv a len with ⟨s', hs', hinv⟩
  refine of_step hs' hinv ?_
  cases hs'
  -- a block is allocated, so the free lists have been changed before
  have hopen := h.files.checkFileOpen (fun hcreated => by
    by_contra hchanged
    have := (h.files.untouched hcreated (by simpa using hchanged)).1
    rw [this] at ha
    cases ha)
  have hle := h.inv.allocator.partition.tiling.le (.inr (Inv.mem_used ha))
  have hmax : max s.1.store.allocatedSize (a.off + headerSize + len) = s.1.store.allocatedSize := by
    apply max_eq_left
    simp only [Allocation.block] at hle
    omega
  have hdata : (checkFileOpen s.1.store).dataFile.map (max · (a.off + headerSize + len)) =
      (checkFileOpen s.1.store).dataFile := by
    rw [h.files.checkFileOpen_dataFile, Option.map_some, hmax]
  simp only [DataStore.writeData, hdata]
  exact ⟨hopen.min_le, hopen.fldirty_created, hopen.open_created, hopen.open_size,
    hopen.closed_size, hopen.uncreated, hopen.written, hopen.untouched⟩

/-- A flush brings the free-list file up to date. -/
theorem flush :
    ∃ t, trackedStep cfg s .flush = .ok t ∧ Tracked cfg t ∧ t.1.store.fldirty = false := by
  rcases @Inv.flush cfg s.1 h.inv with ⟨s', hs', hinv⟩
  refine ⟨(s', s.2), ?_, ⟨hinv, ?_⟩, ?_⟩
  · rw [trackedStep, hs']
    rfl
  · rw [step, Inv.flush_eq h.inv.dirty_open] at hs'
    cases hs'
    have hf := h.files
    refine ⟨hf.min_le, ?_, hf.open_created, hf.open_size, hf.closed_size, hf.uncreated, ?_,
      hf.untouched⟩
    · simp only [Bool.and_eq_true]
      exact fun hd => hf.fldirty_created hd.1
    · simp only
      intro hcreated _ hchanged
      by_cases hd : s.1.store.fldirty
      · simp only [hd, hcreated, Bool.and_self, if_true]
      · simp only [hd, Bool.false_and, Bool.false_eq_true, if_false]
        exact hf.written hcreated hd hchanged
  · rw [step, Inv.flush_eq h.inv.dirty_open] at hs'
    cases hs'
    by_cases hd : s.1.store.fldirty
    · simp [h.files.fldirty_created hd]
    · simp [hd]

/-- Every call succeeds and keeps the invariant. -/
theorem step (hlegal : Legal s.1 e) (hfits : Fits cfg s.1 e) :
    ∃ t, trackedStep cfg s e = .ok t ∧ Tracked cfg t := by
  cases e with
  | allocateSpace n => exact h.allocateSpace hlegal hfits
  | writeData a len => exact h.writeData hlegal.1 hlegal.2
  | freeChunk a => exact h.freeChunk hlegal hfits
  | flush =>
    rcases h.flush with ⟨t, ht, htracked, _⟩
    exact ⟨t, ht, htracked⟩

end Tracked

/-! ## Closing and reopening -/

variable {cfg : Config} {s : Session}

/-- A store opened on files that are up to date. -/
theorem construct_files {fl : Freelists} {m : Nat} (hm : m ≤ 63)
    (hmin : cfg.minAllocSize ≤ 2 ^ m) (hfl : Writable fl) :
    construct cfg (some (2 ^ m)) (some (freelistBytes fl)) = .ok
      { isFileCreated := true, fileOpen := false, dirty := false, fldirty := false, frees := 0,
        largestFreeChunk := largestKey fl, allocatedSize := 2 ^ m, freelists := fl,
        dataFile := some (2 ^ m), freelistFile := some (freelistBytes fl) } := by
  rw [construct]
  simp only [Option.getD_some, roundUpPowerOf2_pow hm, Nat.not_lt.mpr hmin,
    readFreelistFromFile_freelistBytes hfl]
  rfl

/-- If nothing was missed, a flushed session goes on after a restart. -/
theorem Tracked.restart (h : Tracked cfg (s, .fresh))
    (hflushed : s.store.fldirty = false) :
    ∃ s', restart cfg s = .ok s' ∧ s'.store.freelists = s.store.freelists ∧
      s'.store.allocatedSize = s.store.allocatedSize ∧ Tracked cfg (s', .fresh) := by
  rcases s with ⟨store, allocated⟩
  have hf := h.files
  simp only at hf hflushed
  by_cases hcreated : store.isFileCreated
  · have hdata : store.dataFile = some store.allocatedSize := by
      by_cases hopen : store.fileOpen
      · exact hf.open_size hopen
      · rcases hf.closed_size hcreated hopen with ⟨size, _, hdata, heq⟩
        rw [hdata, heq rfl]
    have hfile := hf.written hcreated (by simp [hflushed]) rfl
    rcases h.inv.allocator.size_pow with ⟨m, hm, hsize⟩
    have hnew := construct_files hm (hsize ▸ hf.min_le) h.inv.allocator.writable
    simp only at hdata hfile hsize hnew
    rw [← hsize] at hnew
    rw [DataStore.restart, hdata, hfile, hnew]
    refine ⟨_, rfl, rfl, rfl, ⟨?_, h.inv.nodup, h.inv.requested, by simp⟩, ?_⟩
    · exact h.inv.allocator.congr rfl rfl h.inv.allocator.largest.symm
    · refine ⟨hf.min_le, by simp, by simp, by simp, ?_, by simp, ?_, by simp⟩
      · exact fun _ _ => ⟨_, le_rfl, rfl, fun _ => rfl⟩
      · exact fun _ _ _ => rfl
  · -- without a data file the store is as new
    rcases hf.untouched hcreated rfl with ⟨hallocated, hsize, hfl⟩
    rcases construct_new cfg store.freelistFile with
      ⟨store', size, hnew, hsize', hmin, hstore', hinv⟩
    have hsame : store.allocatedSize = size := hsize.trans hsize'.symm
    rw [hsame] at hfl
    refine ⟨⟨store', allocated⟩, ?_, ?_, ?_, ⟨?_, h.inv.nodup, h.inv.requested, ?_⟩, ?_⟩
    · rw [DataStore.restart, hf.uncreated hcreated, hnew]
      rfl
    · rw [hstore', hfl]
    · rw [hstore', hsame]
    · exact h.inv.allocator.congr (by rw [hstore', hsame]) (by rw [hstore', hfl])
        (by rw [hstore', h.inv.allocator.largest, hfl])
    · simp [hstore']
    · rw [hstore']
      refine ⟨hmin, by simp, by simp, by simp, by simp, by simp, by simp, ?_⟩
      exact fun _ _ => ⟨hallocated, hsize', rfl⟩

theorem tracked_new (cfg : Config) (freelistFile : Option (List UInt8)) :
    ∃ store, construct cfg none freelistFile = .ok store ∧ Tracked cfg (⟨store, []⟩, .fresh) := by
  rcases inv_new cfg freelistFile with ⟨store, hnew, hinv⟩
  rcases construct_new cfg freelistFile with ⟨store', size, hnew', hsize, hmin, hstore, _⟩
  rw [hnew] at hnew'
  cases hnew'
  refine ⟨store, hnew, hinv, ?_⟩
  rw [hstore]
  refine ⟨hmin, by simp, by simp, by simp, by simp, by simp, by simp, ?_⟩
  exact fun _ _ => ⟨rfl, hsize, rfl⟩

/-- What every call of a session has to meet. -/
def CallOk (cfg : Config) (s : Session × History) (e : Event) : Prop :=
  Legal s.1 e ∧ Fits cfg s.1 e

instance (cfg : Config) (s : Session × History) (e : Event) : Decidable (CallOk cfg s e) :=
  inferInstanceAs (Decidable (_ ∧ _))

/-- The sessions of a store: the first one starts without a data file, and each
later one on the files of the one before it, which was closed after a flush with
nothing missed. -/
inductive Opened (cfg : Config) : Session → Prop where
  | new {freelistFile : Option (List UInt8)} {store : Store} :
      construct cfg none freelistFile = .ok store → Opened cfg ⟨store, []⟩
  | reopened {s₀ s s' : Session} {events : List Event} : Opened cfg s₀ →
      Along (trackedStep cfg) (CallOk cfg) (s₀, .fresh) events →
      runM (trackedStep cfg) (s₀, .fresh) (events ++ [Event.flush]) = .ok (s, .fresh) →
      restart cfg s = .ok s' → Opened cfg s'

/-- A session runs up to its last flush. -/
theorem Tracked.session {s₀ : Session} (h : Tracked cfg (s₀, .fresh))
    {events : List Event} (halong : Along (trackedStep cfg) (CallOk cfg) (s₀, .fresh) events) :
    ∃ t, runM (trackedStep cfg) (s₀, .fresh) (events ++ [Event.flush]) = .ok t ∧ Tracked cfg t ∧
      t.1.store.fldirty = false := by
  rcases runM_keeps (fun s e h hok => h.step hok.1 hok.2) h halong with ⟨t, hrun, ht⟩
  rcases ht.flush with ⟨t', hflush, ht', hclean⟩
  exact ⟨t', (runM_concat hrun _).trans hflush, ht', hclean⟩

theorem Opened.tracked (h : Opened cfg s) : Tracked cfg (s, .fresh) := by
  induction h with
  | @new freelistFile store hnew =>
    rcases tracked_new cfg freelistFile with ⟨store', hnew', htracked⟩
    rw [hnew] at hnew'
    cases hnew'
    exact htracked
  | reopened _ halong hrun hrestart ih =>
    rcases ih.session halong with ⟨t, hrun', ht, hclean⟩
    rw [hrun] at hrun'
    cases hrun'
    rcases ht.restart hclean with ⟨s', hrestart', _, _, hs'⟩
    rw [hrestart] at hrestart'
    cases hrestart'
    exact hs'

/-- If at the last flush of a session the free lists last changed with the data
file there, and the data file was opened after the space last grew, then the
reopened store has the same free lists and size, and no block it hands out later
overlaps one allocated before. -/
theorem restart_keeps_free_space {cfg : Config} {s₀ : Session} (hopened : Opened cfg s₀)
    {events : List Event} (halong : Along (trackedStep cfg) (CallOk cfg) (s₀, .fresh) events) :
    ∃ s h, runM (trackedStep cfg) (s₀, .fresh) (events ++ [Event.flush]) = .ok (s, h) ∧
      (h.changedUncreated = false → h.grownUnopened = false →
        ∃ s', restart cfg s = .ok s' ∧ s'.store.freelists = s.store.freelists ∧
          s'.store.allocatedSize = s.store.allocatedSize ∧ s'.allocated = s.allocated ∧
          ∀ later, Along (step cfg) (fun s e => Legal s e ∧ Fits cfg s e) s' later →
            ∃ s'', runM (step cfg) s' later = .ok s'' ∧ BuddySafe s'') := by
  rcases hopened.tracked.session halong with ⟨⟨s, h⟩, hrun, ht, hclean⟩
  refine ⟨s, h, hrun, ?_⟩
  intro hchanged hgrown
  have hfresh : h = .fresh := by
    rcases h with ⟨_, _⟩
    simp only at hchanged hgrown
    rw [hchanged, hgrown]
    rfl
  rw [hfresh] at ht
  rcases ht.restart hclean with ⟨s', hrestart, hfl, hsize, hs'⟩
  refine ⟨s', hrestart, hfl, hsize, ?_, ?_⟩
  · rcases bind_eq_ok.mp hrestart with ⟨store, _, hs⟩
    cases hs
    rfl
  · intro later hlater
    rcases runM_keeps (fun s e h hok => h.step hok.1 hok.2) hs'.inv hlater with ⟨s'', hrun', hs''⟩
    exact ⟨s'', hrun', hs''.buddySafe⟩

/-- The default size of the smallest block. -/
def smallBlocks : Config := ⟨512, false, by norm_num, by norm_num⟩

/-- The second allocation runs with the data file there and open. -/
def writeThenAllocate : List Event :=
  [.allocateSpace 1000, .writeData ⟨1024, 1024, 1000⟩ 1000, .allocateSpace 100]

theorem restart_keeps_free_space_writeThenAllocate :
    ∃ store s h s', construct smallBlocks none none = .ok store ∧
      Along (trackedStep smallBlocks) (CallOk smallBlocks) (⟨store, []⟩, .fresh) writeThenAllocate ∧
      runM (trackedStep smallBlocks) (⟨store, []⟩, .fresh) (writeThenAllocate ++ [Event.flush]) =
        .ok (s, h) ∧
      restart smallBlocks s = .ok s' ∧ s'.store.freelists = s.store.freelists ∧
      s'.store.allocatedSize = s.store.allocatedSize := by
  have heval : (do
      let store ← construct smallBlocks none none
      let t ← runM (trackedStep smallBlocks) (⟨store, []⟩, .fresh)
        (writeThenAllocate ++ [Event.flush])
      .ok (decide (Along (trackedStep smallBlocks) (CallOk smallBlocks) (⟨store, []⟩, .fresh)
        writeThenAllocate), t.2)) = .ok (true, .fresh) := by
    decide +kernel
  rcases bind_eq_ok.mp heval with ⟨store, hstore, heval⟩
  rcases bind_eq_ok.mp heval with ⟨t, ht, heval⟩
  simp only [Except.ok.injEq, Prod.mk.injEq, decide_eq_true_eq] at heval
  rcases restart_keeps_free_space (Opened.new hstore) heval.1 with ⟨s, h, hrun, hclean⟩
  have hfresh : h = .fresh := by
    rw [ht] at hrun
    cases hrun
    exact heval.2
  rcases hclean (by rw [hfresh]; rfl) (by rw [hfresh]; rfl) with ⟨s', hs', hfl, hsize, _⟩
  exact ⟨store, s, h, s', hstore, heval.1, hrun, hs', hfl, hsize⟩

/-- The data file is created by the write, after the only allocation. -/
def writeAfterAllocate : List Event :=
  [.allocateSpace 1000, .writeData ⟨1024, 1024, 1000⟩ 1000]

/-- A session on existing files that grows the space and never opens the file. -/
def growClosed : List Event :=
  [.allocateSpace 2000]

/-- Without the two conditions free space is lost, or a block is handed out twice.
In the first run the free lists were last changed before the data file existed,
so the flush does not write them.  In the second one the space grows while the
data file is closed, so the reopened store is too small and grows again over the
allocated block. -/
theorem restart_loses_space :
    ∃ store, construct smallBlocks none none = .ok store ∧
      (∃ s h s', Along (trackedStep smallBlocks) (CallOk smallBlocks) (⟨store, []⟩, .fresh)
          writeAfterAllocate ∧
        runM (trackedStep smallBlocks) (⟨store, []⟩, .fresh) (writeAfterAllocate ++ [Event.flush]) =
          .ok (s, h) ∧
        restart smallBlocks s = .ok s' ∧ s'.store.freelists ≠ s.store.freelists) ∧
      ∃ s₀ s h s' s'', Opened smallBlocks s₀ ∧
        Along (trackedStep smallBlocks) (CallOk smallBlocks) (s₀, .fresh) growClosed ∧
        runM (trackedStep smallBlocks) (s₀, .fresh) (growClosed ++ [Event.flush]) = .ok (s, h) ∧
        restart smallBlocks s = .ok s' ∧ s'.store.allocatedSize ≠ s.store.allocatedSize ∧
        Along (step smallBlocks) (fun s e => Legal s e ∧ Fits smallBlocks s e) s' growClosed ∧
        runM (step smallBlocks) s' growClosed = .ok s'' ∧ ¬ BuddySafe s'' := by
  have hlost : (do
      let store ← construct smallBlocks none none
      let t ← runM (trackedStep smallBlocks) (⟨store, []⟩, .fresh)
        (writeAfterAllocate ++ [Event.flush])
      let s' ← restart smallBlocks t.1
      .ok (decide (Along (trackedStep smallBlocks) (CallOk smallBlocks) (⟨store, []⟩, .fresh)
        writeAfterAllocate), t.1.store.freelists.keys, s'.store.freelists.keys)) =
      .ok (true, [512], []) := by
    decide +kernel
  have htwice : (do
      let store ← construct smallBlocks none none
      let t₀ ← runM (trackedStep smallBlocks) (⟨store, []⟩, .fresh)
        (writeThenAllocate ++ [Event.flush])
      let s₀ ← restart smallBlocks t₀.1
      let t ← runM (trackedStep smallBlocks) (s₀, .fresh) (growClosed ++ [Event.flush])
      let s' ← restart smallBlocks t.1
      let s'' ← runM (step smallBlocks) s' growClosed
      .ok (decide (Along (trackedStep smallBlocks) (CallOk smallBlocks) (⟨store, []⟩, .fresh)
            writeThenAllocate ∧ t₀.2 = History.fresh ∧
          Along (trackedStep smallBlocks) (CallOk smallBlocks) (s₀, .fresh) growClosed ∧
          s'.store.allocatedSize ≠ t.1.store.allocatedSize ∧
          Along (step smallBlocks) (fun s e => Legal s e ∧ Fits smallBlocks s e) s' growClosed),
        s''.allocated)) =
      .ok (true, [⟨2048, 2048, 2000⟩, ⟨2048, 2048, 2000⟩, ⟨0, 512, 100⟩, ⟨1024, 1024, 1000⟩]) := by
    decide +kernel
  rcases bind_eq_ok.mp hlost with ⟨store, hstore, hlost⟩
  rcases bind_eq_ok.mp htwice with ⟨store', hstore', htwice⟩
  rw [hstore] at hstore'
  cases hstore'
  refine ⟨store, hstore, ?_, ?_⟩
  · rcases bind_eq_ok.mp hlost with ⟨⟨s, h⟩, hrun, hlost⟩
    rcases bind_eq_ok.mp hlost with ⟨s', hrestart, hlost⟩
    simp only [Except.ok.injEq, Prod.mk.injEq, decide_eq_true_eq] at hlost
    refine ⟨s, h, s', hlost.1, hrun, hrestart, ?_⟩
    intro heq
    rw [heq, hlost.2.1] at hlost
    simp at hlost
  · rcases bind_eq_ok.mp htwice with ⟨⟨s₁, h₁⟩, hrun₁, htwice⟩
    rcases bind_eq_ok.mp htwice with ⟨s₀, hrestart₁, htwice⟩
    rcases bind_eq_ok.mp htwice with ⟨⟨s, h⟩, hrun, htwice⟩
    rcases bind_eq_ok.mp htwice with ⟨s', hrestart, htwice⟩
    rcases bind_eq_ok.mp htwice with ⟨s'', hrun', htwice⟩
    simp only [Except.ok.injEq, Prod.mk.injEq, decide_eq_true_eq] at htwice
    rcases htwice with ⟨⟨halong₁, rfl, halong, hsize, halong'⟩, hallocated⟩
    refine ⟨s₀, s, h, s', s'', (Opened.new hstore).reopened halong₁ hrun₁ hrestart₁, halong, hrun,
      hrestart, hsize, halong', hrun', ?_⟩
    intro hsafe
    have hapart := hsafe.allocated_apart
    rw [hallocated, pairwise_cons] at hapart
    exact hapart.1 ⟨2048, 2048, 2000⟩ (by simp) 2048 (by simp [Block.Has, Allocation.block])

end SciDB.DataStore
