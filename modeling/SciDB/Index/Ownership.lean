import Mathlib.Data.Fintype.Basic
import SciDB.Lib.Attempt
import SciDB.Lib.Owners
import SciDB.Lib.Runs
import SciDB.DataStore.Session
import SciDB.Index.Versions

/-!
# Index records own their disk blocks

A `DiskIndex` (`src/storage/IndexMgr.cpp`) keeps a buffer for each record, and a
`DiskIndexValue` in the hands of a caller pins one.  A new buffer belongs to the caller
until its value is inserted; then it belongs to the record, which gives it back when it
is deleted, replaced, rolled back or purged.

Main results:

- Theorem {lit}`perform_keeps`: every call that does not take a pinned buffer away from
  its record keeps the blocks owned exactly once, also when the call throws.
- Theorem {lit}`records_own_blocks`: so does every run of such calls.
-/

namespace SciDB.Index

open OrderedMap KeyMeta Runs Attempt List OrdMap Function
open RocksIndexMap (content Points begin_points Closed)
open RocksIndexMap (begin construct deref find)
open DataStoreKey (zero)

/-! ## Values and buffers -/

/-- `DiskIndexValue::State` -/
inductive ValueState
  | callerPinned
  | indexPinned
  | unpinned
deriving DecidableEq, Repr

/-- `DiskIndexValue`; where its buffer is in the cache is not told by the handle. -/
structure DiskIndexValue where
  state : ValueState := .unpinned
  bufHandle : BufferHandle := { }
deriving DecidableEq, Repr

/-- What `BufferKey::operator<` compares: the buffer in the cache. -/
def BufferKey.buffer (k : BufferKey) : BufferKey :=
  { k with compressedSize := 0 }

/-- The block in the data store, its offset and size. -/
def BufferKey.block (k : BufferKey) : Nat × Nat :=
  (k.off, k.allocSize)

/-- What can go wrong in a call. -/
inductive OwnerFault
  | index (fault : IndexFault)
  /-- "pinned buffer in removeBufferFromCache" -/
  | pinnedBuffer
  /-- "Unpinned buffer in _unpinBuffer" -/
  | unpinnedBuffer
  /-- `SCIDB_ASSERT(_state == IndexPinned)` -/
  | notIndexPinned
deriving DecidableEq, Repr

/-- A disk index with the values its callers have, the pins on its buffers and the
blocks in use in its data store. -/
structure IndexState (n : Nat) where
  db : RocksDb DbKey
  values : Fin n → DiskIndexValue
  pinned : Multiset BufferKey
  allocated : Finset (Nat × Nat)

abbrev Action (n : Nat) (α : Type) : Type :=
  Attempt (IndexState n) OwnerFault α

namespace DiskIndex

variable {n : Nat}

/-- A call of the index map. -/
def ofMap {α : Type} (x : Except MapFault α) : Action n α :=
  lift (x.mapError fun f => .index (.map f))

/-- `BufferHandle::pinBuffer` -/
def pinBuffer (h : BufferHandle) : Action n Unit :=
  if h.isNull then pure ()
  else change fun s => { s with pinned := h.key.buffer ::ₘ s.pinned }

/-- `BufferHandle::unpinBuffer` -/
def unpinBuffer (h : BufferHandle) : Action n Unit :=
  if h.isNull then pure ()
  else do
    let s ← read
    if h.key.buffer ∈ s.pinned then
      change fun s => { s with pinned := s.pinned.erase h.key.buffer }
    else fail .unpinnedBuffer

/-- `BufferHandle::discardBuffer` -/
def discardBuffer (h : BufferHandle) : Action n Unit :=
  if h.isNull then pure ()
  else do
    let s ← read
    if h.key.buffer ∈ s.pinned then fail .pinnedBuffer
    else change fun s => { s with allocated := s.allocated.erase h.key.block }

def setValue (i : Fin n) (v : DiskIndexValue) : Action n Unit :=
  change fun s => { s with values := Function.update s.values i v }

def setMap (db : RocksDb DbKey) : Action n Unit :=
  change fun s => { s with db := db }

/-! ## The calls -/

/-- `_cleanupDiskIndexValue` -/
def cleanupDiskIndexValue (i : Fin n) : Action n Unit := do
  let s ← read
  match (s.values i).state with
  | .callerPinned => do
      unpinBuffer (s.values i).bufHandle
      discardBuffer (s.values i).bufHandle
      setValue i { }
  | .indexPinned => do
      unpinBuffer (s.values i).bufHandle
      setValue i { }
  | .unpinned => pure ()

variable (d : DataStoreKey)

/-- `allocateMemory`; `off` and `allocSize` are what the data store answers. -/
def allocateMemory (i : Fin n) (numBytes : Nat) (compressorType : CompressorType)
    (off allocSize : Nat) : Action n Unit := do
  cleanupDiskIndexValue i
  let key : BufferKey := ⟨d, off, numBytes, numBytes, allocSize⟩
  change fun s => { s with
    allocated := insert key.block s.allocated, pinned := key.buffer ::ₘ s.pinned }
  setValue i ⟨.callerPinned, { compressorType := compressorType, key := key }⟩

variable (k : DbKey)

/-- The first part of `insertRecord`: whether the record is in the index now. -/
def enterRecord (h : BufferHandle) (auxMeta : ChunkAuxMeta) (update : Bool) :
    Action n Bool := do
  let s ← read
  if update then do
    setMap (RocksIndexMap.update s.db k ⟨h, auxMeta⟩).2
    discardBuffer (RocksIndexMap.update s.db k ⟨h, auxMeta⟩).1
    pure true
  else do
    setMap (RocksIndexMap.insert s.db k ⟨h, auxMeta⟩).2
    pure (RocksIndexMap.insert s.db k ⟨h, auxMeta⟩).1

/-- `insertRecord` -/
def insertRecord (i : Fin n) (auxMeta : ChunkAuxMeta) (keepPinned update : Bool) :
    Action n Bool := do
  let s ← read
  let v := s.values i
  let insertRes ← enterRecord k v.bufHandle auxMeta update
  if insertRes then
    if keepPinned then setValue i { v with state := .indexPinned }
    else do
      setValue i { v with state := .unpinned }
      unpinBuffer v.bufHandle
  pure insertRes

/-- The iterator `find` returns, if it is not at the end. -/
def findRecord : Action n (DbKey × Entry) := do
  let s ← read
  let it ← ofMap (find s.db d k)
  match ← ofMap (deref d it) with
  | none => fail (.index .keyNotExist)
  | some e => pure e

/-- `deleteRecord` -/
def deleteRecord : Action n Unit := do
  let e ← findRecord d k
  discardBuffer e.2.value
  change fun s => { s with db := { s.db with store := s.db.store.erase e.1 } }

/-- `pinValue` -/
def pinValue (i : Fin n) : Action n Unit := do
  cleanupDiskIndexValue i
  let e ← findRecord d k
  pinBuffer e.2.value
  setValue i ⟨.indexPinned, e.2.value⟩

/-- `DiskIndexValue::unpin` -/
def unpin (i : Fin n) : Action n Unit := do
  let s ← read
  if (s.values i).state = .indexPinned then do
    unpinBuffer (s.values i).bufHandle
    setValue i { s.values i with state := .unpinned }
  else fail .notIndexPinned

/-- The loop of `DBArray::removeVersions`. -/
def removeLoop (as : Attributes) (lastLiveArrId : Nat) :
    RocksIterator DbKey → Liveness → Action n Unit
  | [], _ => fail (.index (.map .notValid))
  | e :: it, l =>
    if e.1 < keyMax d then do
      let targetAddress ← lift ((keyToAddress e.1 as.getEmptyBitmapAttribute).mapError .index)
      if (l.judge lastLiveArrId targetAddress).2 then deleteRecord d e.1
      removeLoop as lastLiveArrId it (l.judge lastLiveArrId targetAddress).1
    else pure ()

/-- `DBArray::removeVersions` -/
def removeVersions (as : Attributes) (lastLiveArrId : Nat) : Action n Unit := do
  let s ← read
  let current ← ofMap (begin s.db d)
  removeLoop d as lastLiveArrId current { }

/-- The loop of `rollbackVersion`. -/
def discardVersion (vaid : Nat) : RocksIterator DbKey → Action n Unit
  | [] => fail (.index (.map .notValid))
  | e :: it =>
    if e.1 < keyMax d then do
      if e.1.arrVerId = vaid then discardBuffer e.2.value
      discardVersion vaid it
    else pure ()

/-- `BufferMgr::discardAllBuffers`, which removes the data store. -/
def discardAllBuffers : Action n Unit := do
  let s ← read
  if s.pinned = 0 then change fun s => { s with allocated := ∅ }
  else fail .pinnedBuffer

/-- The first part of `rollbackVersion`: the buffers go, and with the first version of
the array the data store. -/
def discardBuffers (vaid lastVersion : Nat) : Action n Unit :=
  if lastVersion = 0 then discardAllBuffers
  else do
    let s ← read
    let it ← ofMap (begin s.db d)
    discardVersion d vaid it

/-- `rollbackVersion` -/
def rollbackVersion (vaid lastVersion : Nat) : Action n Unit := do
  discardBuffers d vaid lastVersion
  let s ← read
  let db ← ofMap (RocksIndexMap.rollbackVersion s.db d vaid)
  setMap db

end DiskIndex

/-- The calls on a disk index and its values. -/
inductive IndexCall (n : Nat)
  | allocateMemory (i : Fin n) (numBytes : Nat) (compressorType : CompressorType)
      (off allocSize : Nat)
  | insertRecord (k : DbKey) (i : Fin n) (auxMeta : ChunkAuxMeta) (keepPinned update : Bool)
  | deleteRecord (k : DbKey)
  | pinValue (k : DbKey) (i : Fin n)
  | unpin (i : Fin n)
  /-- `~DiskIndexValue` -/
  | destroy (i : Fin n)
  | removeVersions (lastLiveArrId : Nat)
  | rollbackVersion (vaid lastVersion : Nat)
deriving DecidableEq, Repr

section

variable {n : Nat} (as : Attributes) (d : DataStoreKey)

def IndexCall.perform : IndexCall n → Action n Unit
  | .allocateMemory i numBytes compressorType off allocSize =>
    DiskIndex.allocateMemory d i numBytes compressorType off allocSize
  | .insertRecord k i auxMeta keepPinned update => do
      let _ ← DiskIndex.insertRecord k i auxMeta keepPinned update
      pure ()
  | .deleteRecord k => DiskIndex.deleteRecord d k
  | .pinValue k i => DiskIndex.pinValue d k i
  | .unpin i => DiskIndex.unpin i
  | .destroy i => DiskIndex.cleanupDiskIndexValue i
  | .removeVersions lastLiveArrId => DiskIndex.removeVersions d as lastLiveArrId
  | .rollbackVersion vaid lastVersion => DiskIndex.rollbackVersion d vaid lastVersion

/-- One call.  If it throws, the next one finds what it left. -/
def IndexState.step (s : IndexState n) (call : IndexCall n) : Except OwnerFault (IndexState n) :=
  .ok (call.perform as d s).2

/-- A new index in a store that has none of its records. -/
def IndexState.init (db : RocksDb DbKey) (marker : Entry) : IndexState n where
  db := construct db d marker
  values _ := { }
  pinned := 0
  allocated := ∅

end

/-! ## Owners -/

/-- The block of a handle, unless it is null. -/
def BufferHandle.block (h : BufferHandle) : Option (Nat × Nat) :=
  if h.isNull then none else some h.key.block

/-- The block a value owns. -/
def DiskIndexValue.owned (v : DiskIndexValue) : Option (Nat × Nat) :=
  if v.state = .callerPinned then v.bufHandle.block else none

/-- The pin a value holds. -/
def DiskIndexValue.pins (v : DiskIndexValue) : Multiset BufferKey :=
  if v.state = .unpinned ∨ v.bufHandle.isNull then 0 else {v.bufHandle.key.buffer}

namespace IndexState

variable {n : Nat} (d : DataStoreKey) (s : IndexState n)

/-- The records of the index. -/
def records : OrdMap DbKey Entry :=
  content s.db.store d

/-- The block that belongs to the record of a key or to a value. -/
def owner : DbKey ⊕ Fin n → Option (Nat × Nat)
  | .inl k => ((s.records d).get k).bind fun e => e.value.block
  | .inr i => (s.values i).owned

/-- Records refer to different blocks, which are in use, and every block in use belongs
either to one record or to one value that is still caller-pinned. -/
structure OwnsBlocks : Prop where
  distinct : ∀ e ∈ (s.records d).entries, ∀ e' ∈ (s.records d).entries,
    e.2.value.isNull = false → e'.2.value.isNull = false →
    e.2.value.key.block = e'.2.value.key.block → e = e'
  allocated : ∀ e ∈ (s.records d).entries, e.2.value.isNull = false →
    e.2.value.key.block ∈ s.allocated
  owner : ∀ b ∈ s.allocated, ∃! o, s.owner d o = some b

/-- What the callers of the index promise: buffers are not empty, a value that is
inserted is new or null, only values pinned in the index are unpinned, and the first
version of an array is rolled back as such.  The data store hands out blocks that are
not in use. -/
def Legal : IndexCall n → Prop
  | .allocateMemory i numBytes _ off allocSize =>
    0 < numBytes ∧ (off, allocSize) ∉ (DiskIndex.cleanupDiskIndexValue i s).2.allocated
  | .insertRecord k i _ _ _ => (k.dsk = d ∧ k ≠ keyMax d) ∧
      ((s.values i).state = .callerPinned ∨ (s.values i).bufHandle.isNull)
  | .deleteRecord k => k.dsk = d ∧ k ≠ keyMax d
  | .pinValue k _ => k.dsk = d ∧ k ≠ keyMax d
  | .unpin i => (s.values i).state = .indexPinned
  | .destroy _ => True
  | .removeVersions _ => True
  | .rollbackVersion vaid lastVersion =>
    lastVersion = 0 → ∀ e ∈ (s.records d).entries, e.1.arrVerId = vaid

/-- A buffer that can be discarded. -/
def Discardable (h : BufferHandle) : Prop :=
  h.isNull = true ∨ h.key.buffer ∉ s.pinned

/-- No record loses a pinned buffer: not the one that is replaced, and none of the
version that is rolled back. -/
def Unpinned : IndexCall n → Prop
  | .insertRecord k _ _ _ update => update = true → ∀ e ∈ (s.records d).get k,
      s.Discardable e.value
  | .rollbackVersion vaid lastVersion => lastVersion ≠ 0 → ∀ e ∈ (s.records d).entries,
      e.1.arrVerId = vaid → s.Discardable e.2.value
  | _ => True

instance (h : BufferHandle) : Decidable (s.Discardable h) :=
  inferInstanceAs (Decidable (_ ∨ _))

instance (call : IndexCall n) : Decidable (s.Legal d call) := by
  unfold Legal
  split <;> infer_instance

instance (call : IndexCall n) : Decidable (s.Unpinned d call) := by
  unfold Unpinned
  split <;> infer_instance

/-- The blocks are owned once, values that are caller-pinned have a buffer, values that
are index-pinned have the buffer of a record, and the pins are those of the values. -/
structure Inv : Prop where
  marker : (s.db.store.get (keyMax d)).isSome
  owned : Owned (s.owner d) s.allocated
  caller : ∀ i, (s.values i).state = .callerPinned → (s.values i).bufHandle.key.same { } = false
  indexed : ∀ i, (s.values i).state = .indexPinned → ∀ b ∈ (s.values i).pins,
    ∃ k e, (s.records d).get k = some e ∧ e.value.isNull = false ∧ e.value.key.buffer = b
  pinned : s.pinned = ∑ i, (s.values i).pins

end IndexState

open IndexState (init records)

open IndexState (owner Discardable)

section Changes

variable {n : Nat} {d : DataStoreKey} {s : IndexState n} {i j : Fin n} {k : DbKey}
  {v : DiskIndexValue} {store : OrdMap DbKey Entry}

theorem block_eq_of_buffer {a b : BufferKey} (h : a.buffer = b.buffer) : a.block = b.block := by
  have hoff := congrArg BufferKey.off h
  have hsize := congrArg BufferKey.allocSize h
  exact Prod.ext hoff hsize

theorem owner_setValue (s : IndexState n) (i : Fin n) (v : DiskIndexValue) :
    ({ s with values := Function.update s.values i v } : IndexState n).owner d =
      Function.update (s.owner d) (.inr i) v.owned := by
  ext o : 1
  cases o with
  | inl k => rfl
  | inr j =>
    by_cases hj : j = i
    · subst hj
      simp [owner]
    · simp [owner, update_of_ne hj]

theorem pins_update (values : Fin n → DiskIndexValue) (i : Fin n) (v : DiskIndexValue) :
    ∑ j, (Function.update values i v j).pins = v.pins + ∑ j ∈ Finset.univ.erase i,
      (values j).pins := by
  rw [← Finset.add_sum_erase Finset.univ _ (Finset.mem_univ i), update_self]
  congr 1
  apply Finset.sum_congr rfl
  intro j hj
  rw [update_of_ne (Finset.ne_of_mem_erase hj)]

/-- The index has one more record, or a record with another value. -/
theorem get_records_insert (hk : k.dsk = d) (hne : k ≠ keyMax d) (e : Entry) (k' : DbKey) :
    (content (store.insert k e) d).get k' =
      if k' = k then some e else (content store d).get k' := by
  rw [content, get_filter, get_insert, content, get_filter]
  by_cases hkk : k' = k
  · subst hkk
    have hdsk : KeyMeta.dsk k' = d := hk
    simp [hdsk, hne]
  · simp [if_neg hkk]

theorem get_records_erase (k k' : DbKey) :
    (content (store.erase k) d).get k' =
      if k' = k then none else (content store d).get k' := by
  rw [RocksIndexMap.content_erase, get_erase]
  congr

/-- One record comes, changes or goes. -/
theorem owner_record {s s' : IndexState n} {e : Option Entry} (hvalues : s'.values = s.values)
    (hget : ∀ k', (s'.records d).get k' = if k' = k then e else (s.records d).get k') :
    s'.owner d = Function.update (s.owner d) (.inl k) (e.bind fun e => e.value.block) := by
  ext o : 1
  cases o with
  | inl k' =>
    rw [owner, hget, update_apply]
    by_cases hkk : k' = k
    · rw [if_pos hkk, if_pos (congrArg Sum.inl hkk)]
    · rw [if_neg hkk, if_neg (fun h => hkk (Sum.inl.inj h))]
      rfl
  | inr i =>
    rw [owner, hvalues]
    rfl

theorem owner_erase (s : IndexState n) (k : DbKey) :
    ({ s with db := { s.db with store := s.db.store.erase k } } : IndexState n).owner d =
      Function.update (s.owner d) (.inl k) none :=
  owner_record (e := none) rfl (get_records_erase k)

theorem owner_insert (hk : k.dsk = d) (hne : k ≠ keyMax d) (s : IndexState n) (e : Entry) :
    ({ s with db := { s.db with store := s.db.store.insert k e } } : IndexState n).owner d =
      Function.update (s.owner d) (.inl k) e.value.block :=
  owner_record (e := some e) rfl (get_records_insert hk hne e)

end Changes

/-! ## Buffers -/

namespace DiskIndex

variable {n : Nat} {d : DataStoreKey} {s : IndexState n} {i j : Fin n} {k : DbKey}
  {h : BufferHandle}

theorem ofMap_ok {α : Type} {x : Except MapFault α} {a : α} (hx : x = .ok a) :
    (ofMap x : Action n α) s = (.ok a, s) := by
  rw [hx]
  rfl

theorem setMap_apply (db : RocksDb DbKey) : setMap db s = (.ok (), { s with db := db }) :=
  rfl

theorem unpinBuffer_null (hnull : h.isNull = true) : unpinBuffer h s = (.ok (), s) := by
  rw [unpinBuffer, if_pos hnull]
  rfl

theorem unpinBuffer_ok (hnull : h.isNull = false) (hmem : h.key.buffer ∈ s.pinned) :
    unpinBuffer h s = (.ok (), { s with pinned := s.pinned.erase h.key.buffer }) := by
  rw [unpinBuffer, if_neg (ne_true_of_eq_false hnull), bind_ok (read_apply s), if_pos hmem]
  rfl

/-- The blocks in use after a handle was discarded. -/
def freed (allocated : Finset (Nat × Nat)) (h : BufferHandle) : Finset (Nat × Nat) :=
  if h.isNull then allocated else allocated.erase h.key.block

theorem discardBuffer_ok (hd : s.Discardable h) :
    discardBuffer h s = (.ok (), { s with allocated := freed s.allocated h }) := by
  rw [discardBuffer, freed]
  by_cases hnull : h.isNull = true
  · rw [if_pos hnull, if_pos hnull]
    rfl
  · rw [if_neg hnull, if_neg hnull, bind_ok (read_apply s), if_neg (hd.resolve_left hnull)]
    rfl

theorem discardBuffer_pinned (hd : ¬s.Discardable h) :
    discardBuffer h s = (.error .pinnedBuffer, s) := by
  rw [Discardable, not_or, not_not] at hd
  rw [discardBuffer, if_neg hd.1, bind_ok (read_apply s), if_pos hd.2]
  rfl

theorem isNull_of_key (hkey : h.key.same { } = false) : h.isNull = false := by
  rw [BufferHandle.isNull, hkey, Bool.and_false]

theorem block_null (hnull : h.isNull = true) : h.block = none :=
  if_pos hnull

theorem block_eq (hnull : h.isNull = false) : h.block = some h.key.block :=
  if_neg (ne_true_of_eq_false hnull)

section Value

variable {v : DiskIndexValue}

theorem owned_caller (hv : v.state = .callerPinned) : v.owned = v.bufHandle.block :=
  if_pos hv

theorem owned_none (hv : v.state ≠ .callerPinned) : v.owned = none :=
  if_neg hv

theorem pins_unpinned (hv : v.state = .unpinned) : v.pins = 0 :=
  if_pos (Or.inl hv)

theorem pins_null (hnull : v.bufHandle.isNull = true) : v.pins = 0 :=
  if_pos (Or.inr hnull)

theorem pins_pinned (hv : v.state ≠ .unpinned) (hnull : v.bufHandle.isNull = false) :
    v.pins = {v.bufHandle.key.buffer} :=
  if_neg (not_or.mpr ⟨hv, ne_true_of_eq_false hnull⟩)

/-- A value that pins a buffer is pinned and has it. -/
theorem mem_pins {b : BufferKey} (hb : b ∈ v.pins) :
    v.state ≠ .unpinned ∧ v.bufHandle.isNull = false ∧ v.bufHandle.key.buffer = b := by
  rw [DiskIndexValue.pins] at hb
  split at hb
  · cases hb
  · rename_i hpin
    rw [not_or, Bool.not_eq_true] at hpin
    exact ⟨hpin.1, hpin.2, (Multiset.mem_singleton.mp hb).symm⟩

end Value

/-- A buffer that a caller has pinned has no other pin. -/
theorem not_mem_pins (hs : s.Inv d) (hi : (s.values i).state = .callerPinned) (hji : j ≠ i) :
    (s.values i).bufHandle.key.buffer ∉ (s.values j).pins := by
  intro hmem
  have howner : s.owner d (.inr i) = some (s.values i).bufHandle.key.block :=
    (owned_caller hi).trans (block_eq (isNull_of_key (hs.caller i hi)))
  rcases mem_pins hmem with ⟨hpin, hnull, hbuffer⟩
  cases hstate : (s.values j).state with
  | unpinned => exact hpin hstate
  | callerPinned =>
    have howner' : s.owner d (.inr j) = some (s.values i).bufHandle.key.block := by
      rw [← block_eq_of_buffer hbuffer]
      exact (owned_caller hstate).trans (block_eq hnull)
    exact hji (Sum.inr.inj (hs.owned.inj _ _ _ howner' howner))
  | indexPinned =>
    rcases hs.indexed j hstate _ hmem with ⟨k, e, hget, he, hrecord⟩
    have howner' : s.owner d (.inl k) = some (s.values i).bufHandle.key.block := by
      rw [owner, hget, Option.bind_some, block_eq he, block_eq_of_buffer hrecord]
    cases hs.owned.inj _ _ _ howner' howner

/-- The pins on the buffers of the other values. -/
def otherPins (s : IndexState n) (i : Fin n) : Multiset BufferKey :=
  ∑ j ∈ Finset.univ.erase i, (s.values j).pins

theorem pinned_eq (hs : s.Inv d) (i : Fin n) : s.pinned = (s.values i).pins + otherPins s i :=
  hs.pinned.trans (Finset.add_sum_erase Finset.univ _ (Finset.mem_univ i)).symm

theorem not_mem_otherPins (hs : s.Inv d) (hi : (s.values i).state = .callerPinned) :
    (s.values i).bufHandle.key.buffer ∉ otherPins s i := by
  rw [otherPins, Multiset.mem_sum]
  rintro ⟨j, hj, hmem⟩
  exact not_mem_pins hs hi (Finset.ne_of_mem_erase hj) hmem

variable {s' : IndexState n} {v : DiskIndexValue} {allocated : Finset (Nat × Nat)}
  {records : List (DbKey × Entry)} {vaid : Nat} {block : DbKey ⊕ Fin n → Option (Nat × Nat)}
  {update : Bool} {it : RocksIterator DbKey} {b : Nat × Nat}

/-- A call changes one value and maybe records whose buffers no other value pins. -/
theorem Inv.change (hs : s.Inv d) (hmarker : (s'.db.store.get (keyMax d)).isSome)
    (hvalues : s'.values = Function.update s.values i v)
    (hpinned : s'.pinned = v.pins + otherPins s i) (howned : Owned (s'.owner d) s'.allocated)
    (hcaller : v.state = .callerPinned → v.bufHandle.key.same { } = false)
    (hindexed : v.state = .indexPinned → ∀ b ∈ v.pins, ∃ k e, (s'.records d).get k = some e ∧
      e.value.isNull = false ∧ e.value.key.buffer = b)
    (hkeep : ∀ k e, (s.records d).get k = some e → e.value.isNull = false →
      e.value.key.buffer ∈ otherPins s i → (s'.records d).get k = some e) : s'.Inv d := by
  have hvalue : ∀ j, ((s'.values j).state = .callerPinned →
      (s'.values j).bufHandle.key.same { } = false) ∧ ((s'.values j).state = .indexPinned →
      ∀ b ∈ (s'.values j).pins, ∃ k e, (s'.records d).get k = some e ∧ e.value.isNull = false ∧
        e.value.key.buffer = b) := by
    intro j
    by_cases hji : j = i
    · rw [hvalues, hji, update_self]
      exact ⟨hcaller, hindexed⟩
    · rw [hvalues, update_of_ne hji]
      refine ⟨hs.caller j, fun hj b hb => ?_⟩
      rcases hs.indexed j hj b hb with ⟨k, e, hget, hnull, hbuffer⟩
      have hmem : e.value.key.buffer ∈ otherPins s i :=
        Multiset.mem_sum.mpr ⟨j, Finset.mem_erase.mpr ⟨hji, Finset.mem_univ j⟩, hbuffer ▸ hb⟩
      exact ⟨k, e, hkeep k e hget hnull hmem, hnull, hbuffer⟩
  refine ⟨hmarker, howned, fun j => (hvalue j).1, fun j => (hvalue j).2, ?_⟩
  rw [hpinned, hvalues, pins_update, otherPins]

/-- A call changes one value only. -/
theorem Inv.setValue (hs : s.Inv d) (hdb : s'.db = s.db)
    (hvalues : s'.values = Function.update s.values i v)
    (hpinned : s'.pinned = v.pins + otherPins s i)
    (howned : Owned (Function.update (s.owner d) (.inr i) v.owned) s'.allocated)
    (hcaller : v.state = .callerPinned → v.bufHandle.key.same { } = false)
    (hindexed : v.state = .indexPinned → ∀ b ∈ v.pins, ∃ k e, (s.records d).get k = some e ∧
      e.value.isNull = false ∧ e.value.key.buffer = b) : s'.Inv d := by
  have hrecords : s'.records d = s.records d := by rw [records, hdb, records]
  have howner : s'.owner d = Function.update (s.owner d) (.inr i) v.owned := by
    rw [← owner_setValue]
    ext o : 1
    cases o with
    | inl k => simp only [owner, records, hdb]
    | inr j => simp [owner, hvalues]
  apply Inv.change hs (hdb ▸ hs.marker) hvalues hpinned (howner ▸ howned) hcaller
  · rw [hrecords]
    exact hindexed
  · rw [hrecords]
    exact fun k e hget _ _ => hget

/-- A value that does not own a block gets another state in which it owns none. -/
theorem owned_setValue (hs : s.Inv d) (hi : (s.values i).state ≠ .callerPinned)
    (hv : v.state ≠ .callerPinned) :
    Owned (Function.update (s.owner d) (.inr i) v.owned) s.allocated := by
  have hnone : s.owner d (.inr i) = none := owned_none hi
  rw [owned_none hv, ← hnone, update_eq_self]
  exact hs.owned

/-- A call changes records whose buffers are not pinned. -/
theorem Inv.setRecords (hs : s.Inv d) (hmarker : (s'.db.store.get (keyMax d)).isSome)
    (hvalues : s'.values = s.values) (hpinned : s'.pinned = s.pinned)
    (howned : Owned (s'.owner d) s'.allocated)
    (hkeep : ∀ k e, (s.records d).get k = some e → ¬s.Discardable e.value →
      (s'.records d).get k = some e) : s'.Inv d := by
  refine ⟨hmarker, howned, ?_, ?_, ?_⟩
  · rw [hvalues]
    exact hs.caller
  · intro i hi b hb
    rw [hvalues] at hi hb
    rcases hs.indexed i hi b hb with ⟨k, e, hget, hnull, hbuffer⟩
    have hmem : b ∈ s.pinned := by
      rw [hs.pinned]
      exact Multiset.mem_sum.mpr ⟨i, Finset.mem_univ i, hb⟩
    refine ⟨k, e, hkeep k e hget ?_, hnull, hbuffer⟩
    rintro (h | h)
    · rw [hnull] at h
      cases h
    · exact h (hbuffer ▸ hmem)
  · rw [hpinned, hvalues]
    exact hs.pinned

/-- The pin of a value is released. -/
theorem unpinBuffer_eq {others : Multiset BufferKey} (hp : s.pinned = v.pins + others)
    (hv : v.state ≠ .unpinned ∨ v.bufHandle.isNull = true) :
    unpinBuffer v.bufHandle s = (.ok (), { s with pinned := others }) := by
  cases hnull : v.bufHandle.isNull with
  | true =>
    rw [pins_null hnull, zero_add] at hp
    rw [unpinBuffer_null hnull, ← hp]
  | false =>
    have hpin : v.state ≠ .unpinned := hv.resolve_right (ne_true_of_eq_false hnull)
    rw [pins_pinned hpin hnull, Multiset.singleton_add] at hp
    have hmem : v.bufHandle.key.buffer ∈ s.pinned := by
      rw [hp]
      exact Multiset.mem_cons_self _ _
    rw [unpinBuffer_ok hnull hmem, hp, Multiset.erase_cons_head]

/-- `_cleanupDiskIndexValue` gives up what the value owned. -/
theorem cleanup_eq (hs : s.Inv d) (i : Fin n) :
    ∃ s', cleanupDiskIndexValue i s = (.ok (), s') ∧ s'.Inv d ∧
      (s'.values i).state = .unpinned ∧ s'.db = s.db := by
  have howner : s.owner d (.inr i) = (s.values i).owned := rfl
  rw [cleanupDiskIndexValue, bind_ok (read_apply s)]
  cases hstate : (s.values i).state with
  | unpinned => exact ⟨s, rfl, hs, hstate, rfl⟩
  | indexPinned =>
    have hne : (s.values i).state ≠ .unpinned := by simp [hstate]
    simp only
    rw [bind_ok (unpinBuffer_eq (pinned_eq hs i) (.inl hne))]
    refine ⟨_, rfl, Inv.setValue hs rfl rfl ?_ ?_ nofun nofun, ?_, rfl⟩
    · rw [pins_unpinned rfl, zero_add]
    · exact owned_setValue hs (by simp [hstate]) nofun
    · simp
  | callerPinned =>
    have hne : (s.values i).state ≠ .unpinned := by simp [hstate]
    have hnull := isNull_of_key (hs.caller i hstate)
    have hdiscard : Discardable { s with pinned := otherPins s i }
        (s.values i).bufHandle := .inr (not_mem_otherPins hs hstate)
    simp only
    rw [bind_ok (unpinBuffer_eq (pinned_eq hs i) (.inl hne)), bind_ok (discardBuffer_ok hdiscard)]
    refine ⟨_, rfl, Inv.setValue hs rfl rfl ?_ ?_ nofun nofun, ?_, rfl⟩
    · rw [pins_unpinned rfl, zero_add]
    · have hdrop := hs.owned.drop (howner.trans ((owned_caller hstate).trans (block_eq hnull)))
      rw [freed, if_neg (ne_true_of_eq_false hnull)]
      exact hdrop
    · simp

/-! ## The calls keep the blocks owned -/

theorem closed (hs : s.Inv d) : Closed s.db.store d := by
  rcases Option.isSome_iff_exists.mp hs.marker with ⟨e, he⟩
  exact ⟨(keyMax d, e), mem_entries.mpr he, le_rfl⟩

theorem allocateMemory_keeps (hs : s.Inv d) {numBytes off allocSize : Nat}
    {compressorType : CompressorType} (hbytes : 0 < numBytes)
    (hfresh : (off, allocSize) ∉ (cleanupDiskIndexValue i s).2.allocated) :
    (allocateMemory d i numBytes compressorType off allocSize s).2.Inv d := by
  rcases cleanup_eq hs i with ⟨s', hclean, hs', hstate, -⟩
  rw [hclean] at hfresh
  rw [allocateMemory, bind_ok hclean]
  have hnone : s'.owner d (.inr i) = none := owned_none (by simp [hstate])
  let v : DiskIndexValue :=
    ⟨.callerPinned, { compressorType := compressorType, key :=
      ⟨d, off, numBytes, numBytes, allocSize⟩ }⟩
  have hkey : v.bufHandle.key.same { } = false := by simp [v, BufferKey.same, hbytes.ne']
  have hnull := isNull_of_key hkey
  refine Inv.setValue hs' rfl rfl ?_ ?_ (fun _ => hkey) nofun
  · have hp := pinned_eq hs' i
    rw [pins_unpinned hstate, zero_add] at hp
    rw [pins_pinned (by nofun) hnull, ← hp]
    rfl
  · rw [owned_caller rfl, block_eq hnull]
    exact hs'.owned.take hnone hfresh

theorem findRecord_eq (hs : s.Inv d) (hk : k.dsk = d) (hne : k ≠ keyMax d) :
    findRecord d k s =
      match (s.records d).get k with
      | none => (.error (.index .keyNotExist), s)
      | some e => (.ok (k, e), s) := by
  rcases RocksIndexMap.find_points (closed hs) hk hne with ⟨it, hit, hp⟩
  have hhead : (if ((s.records d).get k).isSome then (s.records d).seek k else []).head? =
      ((s.records d).get k).map fun e => (k, e) := by
    cases hget : (s.records d).get k with
    | none => rfl
    | some e =>
      rw [seek_of_get hget]
      rfl
  rw [findRecord, bind_ok (read_apply s), bind_ok (ofMap_ok hit),
    bind_ok (ofMap_ok (hp.deref.trans (congrArg _ hhead)))]
  cases (s.records d).get k <;> rfl

/-- The record of a key gives its block back, if the buffer is not pinned. -/
theorem owned_freed (hs : Owned block allocated) (hblock : block (.inl k) = h.block) :
    Owned (Function.update block (.inl k) none) (freed allocated h) := by
  rw [BufferHandle.block] at hblock
  rw [DiskIndex.freed]
  split
  · rename_i hnull
    rw [if_pos hnull] at hblock
    rw [← hblock, update_eq_self]
    exact hs
  · rename_i hnull
    rw [if_neg hnull] at hblock
    exact hs.drop hblock

theorem deleteRecord_keeps (hk : k.dsk = d) (hne : k ≠ keyMax d) :
    Keeps (fun s : IndexState n => s.Inv d) (deleteRecord d k) := by
  intro s hs
  have hfind := findRecord_eq hs hk hne
  cases hget : (s.records d).get k with
  | none =>
    rw [hget] at hfind
    rw [deleteRecord, bind_error hfind]
    exact hs
  | some e =>
    rw [hget] at hfind
    rw [deleteRecord, bind_ok hfind]
    by_cases hdiscard : s.Discardable e.value
    · rw [bind_ok (discardBuffer_ok hdiscard)]
      have hblock : s.owner d (.inl k) = e.value.block := by
        rw [owner, hget, Option.bind_some]
      refine Inv.setRecords hs ?_ rfl rfl ?_ ?_
      · change ((s.db.store.erase k).get (keyMax d)).isSome
        rw [get_erase, if_neg hne.symm]
        exact hs.marker
      · have howner := owner_erase (d := d) s k
        exact howner ▸ owned_freed hs.owned hblock
      · intro k' e' hget' hpinned
        change (content (s.db.store.erase k) d).get k' = some e'
        rw [get_records_erase, if_neg]
        · exact hget'
        · rintro rfl
          rw [hget, Option.some.injEq] at hget'
          exact hpinned (hget' ▸ hdiscard)
    · rw [bind_error (discardBuffer_pinned hdiscard)]
      exact hs

theorem unpin_keeps (hs : s.Inv d) (hi : (s.values i).state = .indexPinned) :
    (unpin i s).2.Inv d := by
  have hne : (s.values i).state ≠ .unpinned := by simp [hi]
  rw [unpin, bind_ok (read_apply s), if_pos hi,
    bind_ok (unpinBuffer_eq (pinned_eq hs i) (.inl hne))]
  refine Inv.setValue hs rfl rfl ?_ ?_ nofun nofun
  · rw [pins_unpinned rfl, zero_add]
    rfl
  · exact owned_setValue hs (by simp [hi]) nofun

theorem pinValue_keeps (hs : s.Inv d) (hk : k.dsk = d) (hne : k ≠ keyMax d) (i : Fin n) :
    (pinValue d k i s).2.Inv d := by
  rcases cleanup_eq hs i with ⟨s', hclean, hs', hstate, -⟩
  have hfind := findRecord_eq hs' hk hne
  rw [pinValue, bind_ok hclean]
  cases hget : (s'.records d).get k with
  | none =>
    rw [hget] at hfind
    rw [bind_error hfind]
    exact hs'
  | some e =>
    rw [hget] at hfind
    rw [bind_ok hfind]
    let v : DiskIndexValue := ⟨.indexPinned, e.value⟩
    have hp := pinned_eq hs' i
    rw [pins_unpinned hstate, zero_add] at hp
    have hpin : pinBuffer e.value s' = (.ok (), { s' with pinned := v.pins + otherPins s' i }) := by
      rw [pinBuffer]
      cases hnull : e.value.isNull with
      | true =>
        rw [pins_null hnull, zero_add, ← hp]
        rfl
      | false =>
        rw [pins_pinned (by nofun) hnull, ← hp]
        rfl
    rw [bind_ok hpin]
    refine Inv.setValue hs' rfl rfl rfl ?_ nofun ?_
    · exact owned_setValue hs' (by simp [hstate]) nofun
    · intro _ b hb
      rcases mem_pins hb with ⟨-, hnull, hbuffer⟩
      exact ⟨k, e, hget, hnull, hbuffer⟩

/-- A value is inserted: its buffer goes to the record, in the place of an old one. -/
theorem owned_enter (hs : Owned block allocated) (hold : block (.inl k) = h.block) :
    Owned (Function.update (Function.update block (.inl k) (block (.inr i))) (.inr i) none)
      (freed allocated h) := by
  have hfreed := owned_freed hs hold
  have hne : (Sum.inr i : DbKey ⊕ Fin n) ≠ .inl k := nofun
  have hvalue : Function.update block (.inl k) none (.inr i) = block (.inr i) :=
    update_of_ne hne none block
  cases hb : block (.inr i) with
  | none =>
    have hself := update_eq_self (.inr i) (Function.update block (.inl k) none)
    rw [hvalue, hb] at hself
    rw [hself]
    exact hfreed
  | some b =>
    have hhand := hfreed.hand (hvalue.trans hb) (by rw [update_self])
    rwa [update_comm hne.symm, update_idem, update_comm hne] at hhand

/-- What is stored of a handle refers to the same block. -/
theorem block_resetSlotGenCount (hh : h.isNull = true ∨ h.key.same { } = false) :
    h.resetSlotGenCount.block = h.block := by
  rcases hh with hnull | hkey
  · have hreset : h.resetSlotGenCount.isNull = true := by
      rw [BufferHandle.isNull, Bool.and_eq_true] at hnull
      rw [BufferHandle.isNull, BufferHandle.resetSlotGenCount, hnull.2]
      rfl
    rw [block_null hnull, block_null hreset]
  · rw [block_eq (isNull_of_key hkey), block_eq (isNull_of_key (h := h.resetSlotGenCount) hkey)]
    rfl

/-- The state after a record was entered in the place of an old one. -/
def entered (s : IndexState n) (k : DbKey) (e : Entry) (old : BufferHandle) : IndexState n :=
  { s with
    db := { s.db with store := s.db.store.insert k e }, allocated := freed s.allocated old }

theorem enterRecord_eq (hk : k.dsk = d) (hne : k ≠ keyMax d) (auxMeta : ChunkAuxMeta)
    (hunpinned : update = true → ∀ e ∈ (s.records d).get k, s.Discardable e.value) :
    enterRecord k h auxMeta update s = (.ok false, s) ∨
      ∃ old, enterRecord k h auxMeta update s =
          (.ok true, entered s k (Entry.atRest ⟨h, auxMeta⟩) old) ∧
        s.owner d (.inl k) = old.block ∧ ∀ e ∈ (s.records d).get k, s.Discardable e.value := by
  have hget : (s.records d).get k = s.db.store.get k := RocksIndexMap.content_get hk hne
  have howner : s.owner d (.inl k) = (s.db.store.get k).bind fun e => e.value.block := by
    rw [owner, hget]
  rw [enterRecord, bind_ok (read_apply s)]
  cases update with
  | true =>
    right
    have hdiscard : s.Discardable (RocksIndexMap.update s.db k ⟨h, auxMeta⟩).1 := by
      rw [RocksIndexMap.update]
      cases hstore : s.db.store.get k with
      | none => exact .inl rfl
      | some e => exact hunpinned rfl e (by rw [hget, hstore]; exact rfl)
    refine ⟨(RocksIndexMap.update s.db k ⟨h, auxMeta⟩).1, ?_, ?_, hunpinned rfl⟩
    · have hdiscard' : Discardable
          { s with db := (RocksIndexMap.update s.db k ⟨h, auxMeta⟩).2 }
          (RocksIndexMap.update s.db k ⟨h, auxMeta⟩).1 := hdiscard
      rw [if_pos rfl, bind_ok (setMap_apply _), bind_ok (discardBuffer_ok hdiscard')]
      rfl
    · rw [howner, RocksIndexMap.update]
      cases s.db.store.get k with
      | none => exact (block_null rfl).symm
      | some e => rfl
  | false =>
    rw [RocksIndexMap.insert]
    cases hstore : s.db.store.get k with
    | some e => exact .inl rfl
    | none =>
      right
      refine ⟨{ }, rfl, ?_, ?_⟩
      · rw [howner, hstore]
        exact (block_null rfl).symm
      · rw [hget, hstore]
        nofun

theorem insertRecord_keeps (hs : s.Inv d) (hk : k.dsk = d) (hne : k ≠ keyMax d)
    (hv : (s.values i).state = .callerPinned ∨ (s.values i).bufHandle.isNull = true)
    {auxMeta : ChunkAuxMeta} {keepPinned : Bool}
    (hunpinned : update = true → ∀ e ∈ (s.records d).get k, s.Discardable e.value) :
    (insertRecord k i auxMeta keepPinned update s).2.Inv d := by
  rw [insertRecord, bind_ok (read_apply s)]
  rcases enterRecord_eq hk hne auxMeta hunpinned with
    hexists | ⟨old, hentered, hold, hdiscard⟩
  · rw [bind_ok hexists]
    exact hs
  · rw [bind_ok hentered]
    let v := s.values i
    let e : Entry := Entry.atRest ⟨v.bufHandle, auxMeta⟩
    have hkey : v.bufHandle.isNull = true ∨ v.bufHandle.key.same { } = false :=
      hv.symm.imp_right (hs.caller i)
    have hvalue : s.owner d (.inr i) = v.bufHandle.block := by
      rcases hv with hcaller | hnull
      · exact owned_caller hcaller
      · rw [block_null hnull]
        by_cases hcaller : v.state = .callerPinned
        · exact (owned_caller hcaller).trans (block_null hnull)
        · exact owned_none hcaller
    have hpin : v.state ≠ .unpinned ∨ v.bufHandle.isNull = true :=
      hv.imp_left fun h => by rw [h]; nofun
    -- whatever becomes of the pin, the buffer is now that of the record
    have hinv : ∀ state others, state ≠ .callerPinned →
        others = (⟨state, v.bufHandle⟩ : DiskIndexValue).pins + otherPins s i →
        IndexState.Inv d { entered s k e old with
          values := Function.update s.values i ⟨state, v.bufHandle⟩, pinned := others } := by
      intro state others hstate hothers
      have hblock : e.value.block = v.bufHandle.block := block_resetSlotGenCount hkey
      have hrecords : ∀ k', (content (s.db.store.insert k e) d).get k' =
          if k' = k then some e else (s.records d).get k' := get_records_insert hk hne e
      refine Inv.change hs ?_ rfl hothers ?_ (fun h => (hstate h).elim) ?_ ?_
      · change ((s.db.store.insert k e).get (keyMax d)).isSome
        rw [get_insert, if_neg hne.symm]
        exact hs.marker
      · have howner : owner d { entered s k e old with
            values := Function.update s.values i ⟨state, v.bufHandle⟩, pinned := others } =
            Function.update (Function.update (s.owner d) (.inl k) (s.owner d (.inr i)))
              (.inr i) none := by
          have hnone : (⟨state, v.bufHandle⟩ : DiskIndexValue).owned = none := owned_none hstate
          rw [hvalue, ← hblock, ← owner_insert hk hne, ← hnone]
          exact owner_setValue { s with db := { s.db with store := s.db.store.insert k e } } i _
        rw [howner]
        exact owned_enter hs.owned hold
      · intro _ b hb
        rcases mem_pins hb with ⟨-, hnull, hbuffer⟩
        refine ⟨k, e, ?_, ?_, hbuffer⟩
        · exact (hrecords k).trans (if_pos rfl)
        · have hsame := hkey.resolve_left (ne_true_of_eq_false hnull)
          exact isNull_of_key hsame
      · intro k' e' hget' hnull hmem
        refine (hrecords k').trans ?_
        rw [if_neg, hget']
        -- the record that is replaced has no other pin
        rintro rfl
        have hpinned : e'.value.key.buffer ∈ s.pinned := by
          rw [pinned_eq hs]
          exact Multiset.mem_add.mpr (.inr hmem)
        rcases hdiscard e' hget' with h | h
        · rw [hnull] at h
          cases h
        · exact h hpinned
    cases keepPinned with
    | true =>
      refine hinv .indexPinned s.pinned nofun ?_
      have hpins : v.pins = (⟨.indexPinned, v.bufHandle⟩ : DiskIndexValue).pins := by
        rcases hpin with h | h <;> simp [DiskIndexValue.pins, h]
      rw [← hpins]
      exact pinned_eq hs i
    | false =>
      let s₁ : IndexState n := { entered s k e old with
        values := Function.update s.values i ⟨.unpinned, v.bufHandle⟩ }
      have hunpin : unpinBuffer v.bufHandle s₁ = (.ok (), { s₁ with pinned := otherPins s i }) :=
        unpinBuffer_eq (pinned_eq hs i) hpin
      change IndexState.Inv d ((unpinBuffer v.bufHandle >>= fun _ => pure true) s₁).2
      rw [bind_ok hunpin]
      refine hinv .unpinned (otherPins s i) nofun ?_
      rw [pins_unpinned rfl, zero_add]

theorem removeLoop_keeps (as : Attributes) (lastLiveArrId : Nat)
    (hp : Points d it records) (hrecords : ∀ e ∈ records, e.1.dsk = d) (l : Liveness) :
    Keeps (fun s : IndexState n => s.Inv d) (removeLoop d as lastLiveArrId it l) := by
  induction records generalizing it l with
  | nil =>
    rcases hp.behind with ⟨e, rest, rfl, hlt⟩
    rw [removeLoop, if_neg hlt]
    exact Keeps.pure ()
  | cons e records ih =>
    rcases hp.uncons with ⟨rest, rfl, hlt, hrest⟩
    have hloop := ih hrest fun x hx => hrecords x (mem_cons_of_mem e hx)
    rw [removeLoop, if_pos hlt]
    refine Keeps.bind (Keeps.lift _) fun targetAddress => ?_
    split
    · exact Keeps.bind (deleteRecord_keeps (hrecords e mem_cons_self) hlt.ne) fun _ => hloop _
    · exact Keeps.bind (Keeps.pure ()) fun _ => hloop _

theorem removeVersions_keeps (hd : d ≠ zero) (hs : s.Inv d) (as : Attributes)
    (lastLiveArrId : Nat) : (removeVersions d as lastLiveArrId s).2.Inv d := by
  rcases begin_points hd (closed hs) with ⟨it, hit, hp⟩
  rw [removeVersions, bind_ok (read_apply s), bind_ok (ofMap_ok hit)]
  exact removeLoop_keeps as lastLiveArrId hp
    (fun e he => (RocksIndexMap.mem_content.mp he).2.1) { } s hs

/-- The blocks in use after the buffers of a version were discarded. -/
def versionFreed (vaid : Nat) (allocated : Finset (Nat × Nat)) (records : List (DbKey × Entry)) :
    Finset (Nat × Nat) :=
  records.foldl (fun used e => if e.1.arrVerId = vaid then freed used e.2.value else used) allocated

theorem mem_freed : b ∈ freed allocated h ↔ b ∈ allocated ∧ h.block ≠ some b := by
  rw [freed, BufferHandle.block]
  split
  · simp
  · rw [Finset.mem_erase, and_comm, ne_eq, ne_eq, Option.some.injEq, eq_comm]

theorem mem_versionFreed :
    b ∈ versionFreed vaid allocated records ↔
      b ∈ allocated ∧ ∀ e ∈ records, e.1.arrVerId = vaid → e.2.value.block ≠ some b := by
  induction records generalizing allocated with
  | nil => simp [versionFreed]
  | cons e records ih =>
    rw [versionFreed, foldl_cons, ← versionFreed, ih, forall_mem_cons]
    split
    · rw [mem_freed]
      tauto
    · tauto

theorem discardVersion_eq (hp : Points d it records)
    (hdiscard : ∀ e ∈ records, e.1.arrVerId = vaid → s.Discardable e.2.value) :
    discardVersion d vaid it s =
      (.ok (), { s with allocated := versionFreed vaid s.allocated records }) := by
  induction records generalizing it s with
  | nil =>
    rcases hp.behind with ⟨e, rest, rfl, hlt⟩
    rw [discardVersion, if_neg hlt]
    rfl
  | cons e records ih =>
    rcases hp.uncons with ⟨rest, rfl, hlt, hrest⟩
    have htail : ∀ x ∈ records, x.1.arrVerId = vaid → s.Discardable x.2.value :=
      fun x hx => hdiscard x (mem_cons_of_mem e hx)
    rw [discardVersion, if_pos hlt]
    by_cases hv : e.1.arrVerId = vaid
    · let s₁ : IndexState n := { s with allocated := freed s.allocated e.2.value }
      have hloop := ih (s := s₁) hrest htail
      rw [if_pos hv, bind_ok (discardBuffer_ok (hdiscard e mem_cons_self hv))]
      refine hloop.trans ?_
      rw [versionFreed, versionFreed, foldl_cons, if_pos hv]
    · have hloop := ih hrest htail
      rw [if_neg hv]
      refine hloop.trans ?_
      rw [versionFreed, versionFreed, foldl_cons, if_neg hv]

/-- The records that a rollback leaves. -/
theorem rollback_map (hd : d ≠ zero) (hs : s.Inv d) (vaid : Nat) :
    ∃ db, RocksIndexMap.rollbackVersion s.db d vaid = .ok db ∧
      (db.store.get (keyMax d)).isSome ∧
      ∀ k, (content db.store d).get k =
        if k.arrVerId = vaid then none else (s.records d).get k := by
  refine ⟨_, RocksIndexMap.rollbackVersion_eq hd (closed hs) vaid, ?_, ?_⟩
  · rw [get_filter, if_pos (by simp)]
    exact hs.marker
  · intro k
    have hversion : keyVersion k = k.arrVerId := rfl
    rw [content, records, content]
    simp only [get_filter]
    by_cases hk : dsk k = d ∧ k ≠ keyMax d
    · by_cases hv : k.arrVerId = vaid <;> simp [hk, hversion]
    · simp [hk]

/-- The owners that are left when the records of a version are gone. -/
theorem owner_rolledBack (hvalues : s'.values = s.values) (hget : ∀ k, (s'.records d).get k =
      if k.arrVerId = vaid then none else (s.records d).get k) :
    s'.owner d = fun o => if o.elim (fun k => decide (k.arrVerId = vaid)) (fun _ => false)
      then none else s.owner d o := by
  ext o : 1
  cases o with
  | inl k =>
    simp only [owner, hget, Sum.elim_inl, decide_eq_true_iff]
    split <;> rfl
  | inr i =>
    simp only [owner, hvalues]
    rfl

theorem rollbackVersion_keeps (hd : d ≠ zero) (hs : s.Inv d) {lastVersion : Nat}
    (hfirst : lastVersion = 0 → ∀ e ∈ (s.records d).entries, e.1.arrVerId = vaid)
    (hunpinned : lastVersion ≠ 0 → ∀ e ∈ (s.records d).entries, e.1.arrVerId = vaid →
      s.Discardable e.2.value) :
    (rollbackVersion d vaid lastVersion s).2.Inv d := by
  rcases rollback_map hd hs vaid with ⟨db, hdb, hmarker, hget⟩
  have howner : ∀ allocated, owner d { s with db := db, allocated := allocated } =
      fun o => if o.elim (fun k => decide (k.arrVerId = vaid)) (fun _ => false)
        then none else s.owner d o := fun _ => owner_rolledBack rfl hget
  have hrest : ∀ allocated, discardBuffers d vaid lastVersion s =
        (.ok (), { s with allocated := allocated }) →
      (rollbackVersion d vaid lastVersion s).2 = { s with db := db, allocated := allocated } := by
    intro allocated hdiscard
    rw [rollbackVersion, bind_ok hdiscard, bind_ok (read_apply _), bind_ok (ofMap_ok hdb)]
    rfl
  by_cases hlast : lastVersion = 0
  · by_cases hpinned : s.pinned = 0
    · have hall : discardBuffers d vaid lastVersion s = (.ok (), { s with allocated := ∅ }) := by
        rw [discardBuffers, if_pos hlast, discardAllBuffers, bind_ok (read_apply s), if_pos hpinned]
        rfl
      rw [hrest ∅ hall]
      refine Inv.setRecords hs hmarker rfl rfl ?_ ?_
      · rw [howner]
        apply hs.owned.dropAll
        intro b
        constructor
        · exact fun hb => (Finset.notMem_empty b hb).elim
        · rintro ⟨hb, hleft⟩
          rcases hs.owned.cover b hb with ⟨k | i, ho⟩
          · rcases Option.bind_eq_some_iff.mp ho with ⟨e, he, -⟩
            have hv := hfirst hlast (k, e) (mem_entries.mpr he)
            exact (hleft _ ho (decide_eq_true hv)).elim
          · -- a value with a buffer would pin it
            by_cases hi : (s.values i).state = .callerPinned
            · have hnull := isNull_of_key (hs.caller i hi)
              have hpins : (s.values i).bufHandle.key.buffer ∈ s.pinned := by
                rw [pinned_eq hs, pins_pinned (by simp [hi]) hnull]
                exact Multiset.mem_add.mpr (.inl (Multiset.mem_singleton_self _))
              rw [hpinned] at hpins
              exact (Multiset.notMem_zero _ hpins).elim
            · rw [owner, owned_none hi] at ho
              cases ho
      · intro k e _ hpin
        refine (hpin (.inr ?_)).elim
        rw [hpinned]
        exact Multiset.notMem_zero _
    · have hall : discardBuffers d vaid lastVersion s = (.error .pinnedBuffer, s) := by
        rw [discardBuffers, if_pos hlast, discardAllBuffers, bind_ok (read_apply s), if_neg hpinned]
        rfl
      rw [rollbackVersion, bind_error hall]
      exact hs
  · rcases begin_points hd (closed hs) with ⟨it, hit, hp⟩
    have hall : discardBuffers d vaid lastVersion s = (.ok (), { s with
        allocated := versionFreed vaid s.allocated (s.records d).entries }) := by
      rw [discardBuffers, if_neg hlast, bind_ok (read_apply s), bind_ok (ofMap_ok hit)]
      exact discardVersion_eq hp (hunpinned hlast)
    rw [hrest _ hall]
    refine Inv.setRecords hs hmarker rfl rfl ?_ ?_
    · rw [howner]
      apply hs.owned.dropAll
      intro b
      rw [mem_versionFreed]
      apply and_congr_right
      intro _
      constructor
      · rintro hfreed (k | i) ho hv
        · rcases Option.bind_eq_some_iff.mp ho with ⟨e, he, hblock⟩
          exact hfreed (k, e) (mem_entries.mpr he) (of_decide_eq_true hv) hblock
        · cases hv
      · intro hleft e he hv hblock
        have ho : s.owner d (.inl e.1) = some b := by
          rw [owner, mem_entries.mp he, Option.bind_some, hblock]
        exact hleft _ ho (decide_eq_true hv)
    · intro k e he hpin
      refine (hget k).trans ?_
      rw [if_neg, he]
      exact fun hv => hpin (hunpinned hlast (k, e) (mem_entries.mpr he) hv)

end DiskIndex

/-! ## Runs -/

section Runs

variable {n : Nat} {as : Attributes} {d : DataStoreKey} {s : IndexState n}

open DiskIndex

/-- Every call keeps the blocks owned, also when it throws. -/
theorem perform_keeps (hd : d ≠ zero) (hs : s.Inv d) {call : IndexCall n}
    (hlegal : s.Legal d call) (hunpinned : s.Unpinned d call) :
    (call.perform as d s).2.Inv d := by
  cases call with
  | allocateMemory i numBytes compressorType off allocSize =>
    exact allocateMemory_keeps hs hlegal.1 hlegal.2
  | insertRecord k i auxMeta keepPinned update =>
    rw [IndexCall.perform, snd_bind_pure]
    exact insertRecord_keeps hs hlegal.1.1 hlegal.1.2 hlegal.2 hunpinned
  | deleteRecord k => exact deleteRecord_keeps hlegal.1 hlegal.2 s hs
  | pinValue k i => exact pinValue_keeps hs hlegal.1 hlegal.2 i
  | unpin i => exact unpin_keeps hs hlegal
  | destroy i =>
    rcases cleanup_eq hs i with ⟨s', hclean, hs', -⟩
    rw [IndexCall.perform, hclean]
    exact hs'
  | removeVersions lastLiveArrId => exact removeVersions_keeps hd hs as lastLiveArrId
  | rollbackVersion vaid lastVersion => exact rollbackVersion_keeps hd hs hlegal hunpinned

theorem IndexState.Inv.ownsBlocks (hs : s.Inv d) : s.OwnsBlocks d := by
  have howner : ∀ e ∈ (s.records d).entries, e.2.value.isNull = false →
      s.owner d (.inl e.1) = some e.2.value.key.block := by
    intro e he hnull
    rw [owner, mem_entries.mp he, Option.bind_some, block_eq hnull]
  refine ⟨?_, ?_, ?_⟩
  · intro e he e' he' hnull hnull' hblock
    have hkey := hs.owned.inj _ _ _ (howner e he hnull) (hblock ▸ howner e' he' hnull')
    have hvalue := mem_entries.mp he
    rw [Sum.inl.inj hkey, mem_entries.mp he', Option.some.injEq] at hvalue
    exact Prod.ext (Sum.inl.inj hkey) hvalue.symm
  · exact fun e he hnull => hs.owned.mem _ _ (howner e he hnull)
  · intro b hb
    rcases hs.owned.cover b hb with ⟨o, ho⟩
    exact ⟨o, ho, fun o' ho' => hs.owned.inj _ _ _ ho' ho⟩

theorem init_inv {db : RocksDb DbKey} (hnew : (content db.store d).entries = [])
    (marker : Entry) : (init d db marker : IndexState n).Inv d := by
  have hempty : (init d db marker : IndexState n).records d = content db.store d := by
    rw [records]
    exact filter_insert_of_neg (by simp)
  have hrecords : ∀ k, ((init d db marker : IndexState n).records d).get k = none := by
    intro k
    rw [hempty]
    cases hget : (content db.store d).get k with
    | none => rfl
    | some e =>
      have hmem := mem_entries.mpr hget
      rw [hnew] at hmem
      cases hmem
  have howner : (init d db marker : IndexState n).owner d = fun _ => none := by
    ext o : 1
    cases o with
    | inl k => rw [owner, hrecords, Option.bind_none]
    | inr i => rfl
  constructor
  · rw [init, construct, get_insert, if_pos rfl, Option.isSome_some]
  · rw [howner]
    exact ⟨fun _ _ h => (by cases h), fun _ _ _ h => (by cases h),
      fun b hb => (Finset.notMem_empty b hb).elim⟩
  · exact fun i hi => (by cases hi)
  · exact fun i hi => (by cases hi)
  · exact (Finset.sum_eq_zero fun i _ => rfl).symm

/-- In every run in which no record loses a pinned buffer, records refer to different
blocks that are in use, and no block is lost. -/
theorem records_own_blocks (hd : d ≠ DataStoreKey.zero) {db : RocksDb DbKey}
    (hnew : (content db.store d).entries = []) (marker : Entry)
    {calls : List (IndexCall n)}
    (hcalls : Along (IndexState.step as d) (fun s call => s.Legal d call ∧ s.Unpinned d call)
      (IndexState.init d db marker) calls) :
    ∃ s, runM (IndexState.step as d) (IndexState.init d db marker) calls = .ok s ∧
      s.OwnsBlocks d := by
  have hstep : ∀ (s : IndexState n) call, s.Inv d → s.Legal d call ∧ s.Unpinned d call →
      ∃ s', IndexState.step as d s call = .ok s' ∧ s'.Inv d :=
    fun s call hs hok => ⟨_, rfl, perform_keeps hd hs hok.1 hok.2⟩
  rcases runM_keeps hstep (init_inv hnew marker) hcalls with ⟨s, hrun, hs⟩
  exact ⟨s, hrun, hs.ownsBlocks⟩

/-- Two versions of a chunk are written and the newer one rolled back, then the older
one is pinned. -/
def writeAndRollBack : List (IndexCall 2) :=
  [.allocateMemory 0 100 .none 0 128, .insertRecord (sampleRecord 1) 0 ⟨0, 1, 1⟩ false true,
    .allocateMemory 1 100 .none 128 128, .insertRecord (sampleRecord 2) 1 ⟨0, 1, 1⟩ true false,
    .unpin 1, .rollbackVersion 2 1, .pinValue (sampleRecord 1) 0, .deleteRecord (sampleRecord 1)]

theorem records_own_blocks_writeAndRollBack :
    ∃ s, runM (IndexState.step sampleAttributes ⟨1, 1⟩)
        (IndexState.init ⟨1, 1⟩ ⟨OrdMap.empty, []⟩ ⟨{ }, ⟨0, 0, 0⟩⟩) writeAndRollBack = .ok s ∧
      s.OwnsBlocks ⟨1, 1⟩ :=
  records_own_blocks (by decide) rfl ⟨{ }, ⟨0, 0, 0⟩⟩ (by decide +kernel)

/-- A record is replaced while a value pins its buffer: the call throws, the old block
belongs to nobody any more, and the new one to the record and to the value.  A version
is rolled back while a value pins the second of its buffers: the call throws, and the
first record refers to a block that is not in use. -/
theorem replaced_record_loses_block :
    (∃ s : IndexState 2, runM (IndexState.step sampleAttributes ⟨1, 1⟩)
        (IndexState.init ⟨1, 1⟩ ⟨OrdMap.empty, []⟩ ⟨{ }, ⟨0, 0, 0⟩⟩)
        [.allocateMemory 0 100 .none 0 128, .insertRecord (sampleRecord 1) 0 ⟨0, 1, 1⟩ true false,
          .allocateMemory 1 100 .none 128 128,
          .insertRecord (sampleRecord 1) 1 ⟨0, 1, 1⟩ false true] = .ok s ∧
      (0, 128) ∈ s.allocated ∧
      (∀ e ∈ (s.records ⟨1, 1⟩).entries, e.2.value.block = some (128, 128)) ∧
      (s.values 0).owned = none ∧ (s.values 1).owned = some (128, 128)) ∧
    ∃ s : IndexState 2, runM (IndexState.step sampleAttributes ⟨1, 1⟩)
        (IndexState.init ⟨1, 1⟩ ⟨OrdMap.empty, []⟩ ⟨{ }, ⟨0, 0, 0⟩⟩)
        [.allocateMemory 0 100 .none 0 128, .insertRecord (sampleRecord 2) 0 ⟨0, 1, 1⟩ false false,
          .allocateMemory 1 100 .none 128 128,
          .insertRecord (fillKey true ⟨1, 1⟩ ⟨0, false⟩ [5] (by decide) 2) 1 ⟨0, 1, 1⟩ true false,
          .rollbackVersion 2 1] = .ok s ∧
      (0, 128) ∉ s.allocated ∧
      ∃ e ∈ (s.records ⟨1, 1⟩).entries, e.2.value.block = some (0, 128) :=
  ⟨⟨_, rfl, by decide +kernel, by decide +kernel, rfl, rfl⟩,
    ⟨_, rfl, by decide +kernel, by decide +kernel⟩⟩

end Runs

/-! ## The data store -/

end SciDB.Index
