import SciDB.Lib.OrderedMap

/-!
# Keys and records of the chunk index

A disk index maps the address of a chunk to the buffer that holds it.  All
persistent indexes live in one ordered store, so a key starts with the data store
key of its index; `KeyLess` of `DbAddressMeta` and `MemAddressMeta`
(`include/array/AddressMeta.h`) compares the number of dimensions next, the larger
one first, which makes the key without coordinates the largest of its index.
The versions of one chunk are in descending order.

Main results:

- Theorems {lit}`DbKey.lt_iff_keyLess` and {lit}`MemKey.lt_iff_keyLess`: the linear
  orders on keys are the comparisons of the source.
- Theorem {lit}`KeyMeta.between_iff`: the keys of an index are those between the
  sentinel of the preceding data store key and its own.
-/

namespace SciDB.Index

open List

/-! ## Data store keys -/

instance neZero_nsid : NeZero (2 ^ 32) := ⟨by decide⟩

instance neZero_dsid : NeZero (2 ^ 64) := ⟨by decide⟩

/-- `DataStore::DataStoreKey`: a namespace and a data store in it. -/
structure DataStoreKey where
  nsid : Fin (2 ^ 32)
  dsid : Fin (2 ^ 64)
deriving DecidableEq, Repr

namespace DataStoreKey

variable {d e : DataStoreKey}

/-- `operator<` -/
def less (a b : DataStoreKey) : Bool :=
  if a.nsid = b.nsid then a.dsid < b.dsid else a.nsid < b.nsid

/-- `predecessor`; the counters wrap around. -/
def predecessor (d : DataStoreKey) : DataStoreKey where
  nsid := if d.dsid = 0 then d.nsid - 1 else d.nsid
  dsid := d.dsid - 1

/-- The default data store key. -/
def zero : DataStoreKey := ⟨0, 0⟩

instance : LinearOrder DataStoreKey :=
  LinearOrder.lift' (fun d => toLex (d.nsid, d.dsid)) (by
    intro a b h
    cases a
    cases b
    simpa using h)

theorem lt_iff : d < e ↔ d.nsid < e.nsid ∨ d.nsid = e.nsid ∧ d.dsid < e.dsid :=
  Prod.Lex.toLex_lt_toLex

theorem zero_le (d : DataStoreKey) : zero ≤ d := by
  rw [← not_lt, lt_iff]
  simp [zero]

theorem lt_iff_less : d < e ↔ d.less e := by
  rw [lt_iff, less]
  split <;> grind

/-- No data store key lies between another one and its predecessor. -/
theorem le_predecessor_iff (hd : d ≠ zero) : e ≤ d.predecessor ↔ e < d := by
  rw [← not_lt, lt_iff, lt_iff, predecessor]
  by_cases hds : d.dsid = 0
  · -- the predecessor is the last data store of the namespace before
    have hns : d.nsid ≠ 0 := by
      intro hns
      apply hd
      cases d
      simp only [DataStoreKey.mk.injEq, zero] at *
      exact ⟨hns, hds⟩
    have hpred := Fin.val_sub_one_of_ne_zero hns
    have hpos : d.nsid.val ≠ 0 := by
      intro h
      exact hns (Fin.ext h)
    have hlast : (d.dsid - 1).val = 2 ^ 64 - 1 := by
      rw [hds]
      rfl
    simp only [hds, if_true, Fin.lt_def, Fin.val_zero] at *
    omega
  · have hpred := Fin.val_sub_one_of_ne_zero hds
    have hpos : d.dsid.val ≠ 0 := by
      intro h
      exact hds (Fin.ext h)
    simp only [hds, if_false]
    omega

end DataStoreKey

/-! ## Keys -/

/-- What the index maps need to know about keys.  A record has at least one
dimension, so `keyMax`, the key without coordinates, is the largest of its index. -/
class KeyMeta (Key : Type) extends LinearOrder Key where
  dsk : Key → DataStoreKey
  keyVersion : Key → Nat
  keyMax : DataStoreKey → Key
  dsk_keyMax : ∀ d, dsk (keyMax d) = d
  /-- `keyLessBase(k1, k2) -> keyLess(k1, k2)` -/
  lt_of_dsk_lt : ∀ k k', dsk k < dsk k' → k < k'
  le_keyMax : ∀ k, k ≤ keyMax (dsk k)

namespace KeyMeta

variable {Key : Type} [KeyMeta Key] {d : DataStoreKey} {k k' : Key}

attribute [simp] dsk_keyMax

/-- The keys of an index are next to each other. -/
theorem dsk_mono (h : k ≤ k') : dsk k ≤ dsk k' := by
  by_contra hd
  exact (lt_of_dsk_lt _ _ (not_le.mp hd)).not_ge h

theorem le_keyMax_iff : k ≤ keyMax d ↔ dsk k ≤ d := by
  constructor
  · intro h
    simpa using dsk_mono h
  · intro h
    rcases h.lt_or_eq with hlt | rfl
    · exact (lt_of_dsk_lt _ _ (by simpa using hlt)).le
    · exact le_keyMax k

theorem keyMax_predecessor_lt_iff (hd : d ≠ DataStoreKey.zero) :
    keyMax d.predecessor < k ↔ d ≤ dsk k := by
  rw [← not_le, le_keyMax_iff, DataStoreKey.le_predecessor_iff hd, not_lt]

/-- The keys of an index are those between the sentinel of the preceding data
store key and its own. -/
theorem between_iff (hd : d ≠ DataStoreKey.zero) :
    keyMax d.predecessor < k ∧ k < keyMax d ↔ dsk k = d ∧ k ≠ keyMax d := by
  rw [keyMax_predecessor_lt_iff hd, lt_iff_le_and_ne, le_keyMax_iff]
  constructor
  · rintro ⟨hge, hle, hne⟩
    exact ⟨le_antisymm hle hge, hne⟩
  · rintro ⟨heq, hne⟩
    exact ⟨heq.ge, heq.le, hne⟩

end KeyMeta

/-- The loop over the coordinates in `KeyLess`: the comparison at the first place
where they differ. -/
def coordsLess : List Int → List Int → Option Bool
  | c :: cs, c' :: cs' => if c ≠ c' then some (c < c') else coordsLess cs cs'
  | _, _ => none

/-- The comparison that `MemAddressMeta::KeyLess` and `DbAddressMeta::KeyLess` have
in common; `tie` is what they return if nothing differs. -/
def addressLess (dsk₁ : DataStoreKey) (attId₁ : Nat) (coords₁ : List Int)
    (dsk₂ : DataStoreKey) (attId₂ : Nat) (coords₂ : List Int) (tie : Bool) : Bool :=
  if dsk₁ ≠ dsk₂ then dsk₁.less dsk₂
  else if coords₁.length ≠ coords₂.length then coords₁.length > coords₂.length
  else if attId₁ ≠ attId₂ then attId₁ < attId₂
  else (coordsLess coords₁ coords₂).getD tie

variable {cs cs' : List Int}

theorem coordsLess_iff (h : cs.length = cs'.length) :
    (coordsLess cs cs' = some true ↔ cs < cs') ∧ (coordsLess cs cs' = none ↔ cs = cs') := by
  induction cs generalizing cs' with
  | nil =>
    rw [eq_nil_of_length_eq_zero h.symm]
    simp [coordsLess]
  | cons c cs ih =>
    cases cs' with
    | nil => simp at h
    | cons c' cs' =>
      rw [coordsLess, cons_lt_cons_iff]
      by_cases hc : c = c'
      · simp [hc, ih (by simpa using h)]
      · simp [hc]

/-- What orders addresses: the data store key, the number of dimensions, the larger
one first, the attribute and the coordinates. -/
abbrev AddressOrder : Type :=
  DataStoreKey ×ₗ Natᵒᵈ ×ₗ Nat ×ₗ List Int

def addressOrder (dsk : DataStoreKey) (attId : Nat) (coords : List Int) : AddressOrder :=
  toLex (dsk, toLex (OrderDual.toDual coords.length, toLex (attId, coords)))

theorem addressOrder_inj {d d' : DataStoreKey} {a a' : Nat} :
    addressOrder d a cs = addressOrder d' a' cs' ↔ d = d' ∧ a = a' ∧ cs = cs' := by
  simp only [addressOrder, EmbeddingLike.apply_eq_iff_eq, Prod.mk.injEq]
  constructor
  · rintro ⟨hd, -, ha, hc⟩
    exact ⟨hd, ha, hc⟩
  · rintro ⟨hd, ha, hc⟩
    exact ⟨hd, congrArg List.length hc, ha, hc⟩

/-- The comparison of the source is the order on addresses. -/
theorem addressLess_iff {d d' : DataStoreKey} {a a' : Nat} {tie : Bool} :
    addressLess d a cs d' a' cs' tie ↔
      addressOrder d a cs < addressOrder d' a' cs' ∨
        addressOrder d a cs = addressOrder d' a' cs' ∧ tie := by
  rw [addressLess, addressOrder, addressOrder]
  simp only [Prod.Lex.toLex_lt_toLex]
  by_cases hd : d = d'
  · by_cases hn : cs.length = cs'.length
    · by_cases ha : a = a'
      · obtain ⟨hsome, hnone⟩ := coordsLess_iff hn
        cases hc : coordsLess cs cs' with
        | none =>
          have heq := hnone.mp hc
          simp [hd, ha, heq]
        | some b =>
          have hne : cs ≠ cs' := by
            intro heq
            rw [hnone.mpr heq] at hc
            cases hc
          rw [hc] at hsome
          simp [hd, hn, ha, hne, ← hsome]
      · simp [hd, hn, ha]
    · simp [hd, hn]
  · simp [hd, DataStoreKey.lt_iff_less]

/-- `DbAddressMeta::Key`; `nDims` is the number of coordinates, and only the
sentinel of an index has none. -/
@[ext]
structure DbKey where
  dsk : DataStoreKey
  attId : Nat
  arrVerId : Nat
  coords : List Int
  zero_of_nil : coords = [] → attId = 0 ∧ arrVerId = 0
deriving DecidableEq, Repr

namespace DbKey

/-- `DbAddressMeta::KeyLess`: the most recent version comes first. -/
def keyLess (k k' : DbKey) : Bool :=
  addressLess k.dsk k.attId k.coords k'.dsk k'.attId k'.coords (k.arrVerId > k'.arrVerId)

/-- `DbAddressMeta::KeyMax` -/
def keyMax (d : DataStoreKey) : DbKey :=
  ⟨d, 0, 0, [], fun _ => ⟨rfl, rfl⟩⟩

def address (k : DbKey) : AddressOrder :=
  addressOrder k.dsk k.attId k.coords

instance : LinearOrder DbKey :=
  LinearOrder.lift' (fun k => toLex (k.address, OrderDual.toDual k.arrVerId)) (by
    intro k k' h
    simp only [address, EmbeddingLike.apply_eq_iff_eq, Prod.mk.injEq, addressOrder_inj] at h
    rcases h with ⟨⟨hd, ha, hc⟩, hv⟩
    exact DbKey.ext hd ha hv hc)

variable {k k' : DbKey}

theorem lt_iff :
    k < k' ↔ k.address < k'.address ∨ k.address = k'.address ∧ k'.arrVerId < k.arrVerId :=
  Prod.Lex.toLex_lt_toLex

theorem lt_iff_keyLess : k < k' ↔ k.keyLess k' := by
  rw [lt_iff, keyLess, addressLess_iff, decide_eq_true_iff]
  rfl

theorem lt_keyMax (h : k.coords ≠ []) : k < keyMax k.dsk := by
  rw [lt_iff_keyLess, keyLess, keyMax, addressLess]
  simp [h, length_pos_iff]

theorem eq_keyMax (h : k.coords = []) : k = keyMax k.dsk :=
  DbKey.ext rfl (k.zero_of_nil h).1 (k.zero_of_nil h).2 h

instance : KeyMeta DbKey where
  dsk := DbKey.dsk
  keyVersion := DbKey.arrVerId
  keyMax := keyMax
  dsk_keyMax _ := rfl
  lt_of_dsk_lt k k' h := lt_iff.mpr (.inl (Prod.Lex.toLex_lt_toLex.mpr (.inl h)))
  le_keyMax k := by
    by_cases h : k.coords = []
    · exact (eq_keyMax h).le
    · exact (lt_keyMax h).le

end DbKey

/-- `MemAddressMeta::Key` -/
@[ext]
structure MemKey where
  dsk : DataStoreKey
  attId : Nat
  coords : List Int
  zero_of_nil : coords = [] → attId = 0
deriving DecidableEq, Repr

namespace MemKey

/-- `MemAddressMeta::KeyLess` -/
def keyLess (k k' : MemKey) : Bool :=
  addressLess k.dsk k.attId k.coords k'.dsk k'.attId k'.coords false

/-- `MemAddressMeta::KeyMax` -/
def keyMax (d : DataStoreKey) : MemKey :=
  ⟨d, 0, [], fun _ => rfl⟩

def address (k : MemKey) : AddressOrder :=
  addressOrder k.dsk k.attId k.coords

instance : LinearOrder MemKey :=
  LinearOrder.lift' address (by
    intro k k' h
    rw [address, address, addressOrder_inj] at h
    exact MemKey.ext h.1 h.2.1 h.2.2)

theorem lt_iff_keyLess {k k' : MemKey} : k < k' ↔ k.keyLess k' := by
  rw [keyLess, addressLess_iff]
  simp only [Bool.false_eq_true, and_false, or_false]
  rfl

/-- Keys of temporary arrays have no version. -/
instance : KeyMeta MemKey where
  dsk := MemKey.dsk
  keyVersion _ := 0
  keyMax := keyMax
  dsk_keyMax _ := rfl
  lt_of_dsk_lt k k' h := by
    rw [lt_iff_keyLess, keyLess, addressLess, if_pos h.ne, ← DataStoreKey.lt_iff_less]
    exact h
  le_keyMax k := by
    by_cases h : k.coords = []
    · have heq : k = keyMax k.dsk := MemKey.ext rfl (k.zero_of_nil h) h
      exact heq.le
    · refine le_of_lt (lt_iff_keyLess.mpr ?_)
      rw [keyLess, keyMax, addressLess]
      simp [h, length_pos_iff]

end MemKey

/-! ## Records -/

/-- `BufferMgr::BufferKey`: where a buffer lies on disk. -/
structure BufferKey where
  dsk : DataStoreKey := DataStoreKey.zero
  off : Nat := 0
  size : Nat := 0
  compressedSize : Nat := 0
  allocSize : Nat := 0
deriving DecidableEq, Repr

/-- `BufferKey::operator==` -/
def BufferKey.same (a b : BufferKey) : Bool :=
  a.dsk = b.dsk && a.off = b.off && a.size = b.size && a.allocSize = b.allocSize

/-- `CompressorType` -/
inductive CompressorType
  | none
  | zlib
  | bzlib
  | unknown
deriving DecidableEq, Repr

/-- `BufferMgr::BufferHandle`; `slot` and `gencount` tell where the buffer was last
seen in the cache, `none` is `INVALID_SLOT`. -/
structure BufferHandle where
  compressorType : CompressorType := .unknown
  slot : Option Nat := none
  gencount : Nat := 0
  key : BufferKey := { }
deriving DecidableEq, Repr

/-- `isNull` -/
def BufferHandle.isNull (h : BufferHandle) : Bool :=
  h.slot = none && h.gencount = 0 && h.key.same { }

/-- `resetSlotGenCount` -/
def BufferHandle.resetSlotGenCount (h : BufferHandle) : BufferHandle :=
  { h with slot := none, gencount := 0 }

/-- `ChunkAuxMeta` -/
structure ChunkAuxMeta where
  primaryInstanceId : Nat
  nElements : Nat
  storageVersion : Nat
deriving DecidableEq, Repr

/-- What an index stores for a key. -/
structure Entry where
  value : BufferHandle
  auxMeta : ChunkAuxMeta
deriving DecidableEq, Repr

/-- `Entry::EntryAsSlice`: a stored handle does not remember the cache. -/
def Entry.atRest (e : Entry) : Entry :=
  { e with value := e.value.resetSlotGenCount }

end SciDB.Index
