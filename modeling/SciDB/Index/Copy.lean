import SciDB.Index.Scan

/-!
# Storing a chunk in a new version

`DBArrayIterator::copyChunk` (`src/array/DBArray.cpp`) puts a chunk into the version of
an array that is being written.  A chunk that was read from the same place of the same
array is not written again: the older entry is to serve the new version too.

Main results:

- Theorem {lit}`isDuplicateChunk_eq`: which chunks are not written again.
- Theorem {lit}`copyInto_eq`: a chunk that is written is what the version sees.
- Theorem {lit}`copyChunk_shows_source_iff`: the version shows the source chunk unless an
  entry hides the one the chunk was read from.
-/

namespace SciDB.Index

open OrderedMap KeyMeta SciDB.Distribution List OrdMap RocksIndexMap
open RocksIndexMap (content)
open DBArrayIterator (lift getChunkPositionFor_ne_nil)
open RocksIndexMap (isEnd leastUpper update)
open DBArrayIterator (record resetChunkRefs setPosition)

/-! ## Chunks -/

/-- The cells of a chunk by their position. -/
abbrev Cells (α : Type) := List Int → Option α

/-- What the blocks on disk hold. -/
abbrev Blocks (α : Type) := BufferKey → Option (Cells α)

/-- The positions from a first to a last one. -/
structure Box where
  first : List Int
  last : List Int
deriving DecidableEq, Repr

def Box.contains (b : Box) (p : List Int) : Bool :=
  decide (List.Forall₂ (· ≤ ·) b.first p ∧ List.Forall₂ (· ≤ ·) p b.last)

/-- `getChunkNumberOfElements` -/
def Box.numberOfElements (b : Box) : Int :=
  (List.zipWith (fun low high => high - low + 1) b.first b.last).prod

/-- What is read of `getArrayDesc()` and `getAttributeDesc()` of a source chunk. -/
structure ChunkSchema where
  arrayId : Nat
  attId : Nat
  isNullable : Bool
  hasOverlap : Bool
  /-- the array has an empty bitmap, which is one of its attributes -/
  emptyable : Bool
  nAttrs : Nat
deriving DecidableEq, Repr

/-- The chunks `copyChunk` tells apart. -/
inductive ConstChunk (α : Type)
  /-- a `CachedDBChunk` that was read from disk, with its `_key` -/
  | cached (schema : ChunkSchema) (key : DbKey) (last : List Int) (overlapBox : Box)
  /-- a `DelegateChunk` on its input; it has cells of its own if it is no clone -/
  | delegate (schema : ChunkSchema) (isClone : Bool) (cells : Cells α) (input : ConstChunk α)
  /-- any other chunk, in memory or computed -/
  | other (schema : ChunkSchema) (box overlapBox : Box) (materialized : Bool) (cells : Cells α)

/-- What can go wrong when a chunk is copied. -/
inductive CopyFault
  | scan (fault : ScanFault)
  | keyNotExist
  | noBuffer
  | noAttribute
  | chunkOutOfBoundaries
  | chunkAlreadyExists (coords : List Int)
  | assertion
deriving DecidableEq, Repr

namespace ConstChunk

variable {α : Type}

def schema : ConstChunk α → ChunkSchema
  | cached schema .. => schema
  | delegate schema .. => schema
  | other schema .. => schema

/-- `getFirstPosition` and `getLastPosition` without the overlap; a delegate asks its
input. -/
def box : ConstChunk α → Box
  | cached _ key last _ => ⟨key.coords, last⟩
  | delegate _ _ _ input => input.box
  | other _ box .. => box

/-- `getFirstPosition` and `getLastPosition` with the overlap. -/
def overlapBox : ConstChunk α → Box
  | cached _ _ _ overlapBox => overlapBox
  | delegate _ _ _ input => input.overlapBox
  | other _ _ overlapBox .. => overlapBox

def isMaterialized : ConstChunk α → Bool
  | cached .. => true
  | delegate _ isClone _ input => isClone && input.isMaterialized
  | other _ _ _ materialized _ => materialized

/-- The key of the chunk, if it is a `CachedDBChunk` behind delegates that pass it
through. -/
def knownChunk : ConstChunk α → Option DbKey
  | cached _ key .. => some key
  | delegate _ isClone _ input => if isClone then input.knownChunk else none
  | other .. => none

/-- A chunk that was read lies where its key says. -/
theorem knownChunk_coords {src : ConstChunk α} {k : DbKey} (h : src.knownChunk = some k) :
    k.coords = src.box.first := by
  induction src with
  | cached schema key last overlapBox =>
    rw [knownChunk, Option.some.injEq] at h
    rw [← h, box]
  | delegate schema isClone cells input ih =>
    cases isClone with
    | true => exact ih h
    | false => cases h
  | other => cases h

end ConstChunk

variable {α : Type}

/-- The search of `DBArray::pinChunk`: the entry it pins.  `_coords` is declared with one
element, so `coordinatesCompare` compares the first coordinates. -/
def pinEntry (db : RocksDb DbKey) (key : DbKey) : Except CopyFault (DbKey × Entry) := do
  let it ← (lift (leastUpper db key)).mapError .scan
  let e ← (record it).mapError .scan
  if e.1.coords.head? ≠ key.coords.head? then .error .keyNotExist
  else if ← (lift (isEnd key.dsk it)).mapError .scan then
    .error .keyNotExist
  else .ok e

/-- `DBArray::pinChunk`: the cells of a chunk on disk. -/
def pinChunk (db : RocksDb DbKey) (blocks : Blocks α) (key : DbKey) :
    Except CopyFault (Cells α) := do
  let e ← pinEntry db key
  match blocks e.2.value.key with
  | some cells => .ok cells
  | none => .error .noBuffer

/-- The cells an iterator over the chunk gives. -/
def ConstChunk.read (db : RocksDb DbKey) (blocks : Blocks α) :
    ConstChunk α → Except CopyFault (Cells α)
  | cached _ key .. => pinChunk db blocks key
  | delegate _ isClone cells input => if isClone then input.read db blocks else .ok cells
  | other _ _ _ _ cells => .ok cells

/-! ## copyChunk -/

/-- The version of an array that is being written. -/
structure NewVersion (α : Type) extends DBArray where
  /-- 1 for the first version of the array -/
  versionId : Nat
  /-- `getChunkOverlap` of the dimensions -/
  overlaps : List Int
  isNullable : Nat → Bool
  defaultValue : Nat → α

namespace NewVersion

variable (a : NewVersion α)

def hasOverlap : Bool :=
  a.overlaps.any fun o => decide (o ≠ 0)

def emptyable : Bool :=
  a.attrs.getEmptyBitmapAttribute.isSome

/-- The positions of a chunk with the overlap, as `MemChunk::initialize` sets them. -/
def chunkBox (coords : List Int) : Box where
  first := List.zipWith3 (fun dim o c => max (c - o) dim.startMin) a.dims a.overlaps coords
  last := List.zipWith3 (fun dim o c => min (c + dim.chunkInterval - 1 + o) dim.endMax)
    a.dims a.overlaps coords

/-- `ArrayDesc::contains` -/
def contains (pos : List Int) : Bool :=
  (a.dims.zip pos).all fun x => decide (x.1.startMin ≤ x.2 ∧ x.2 ≤ x.1.endMax)

end NewVersion

/-- A buffer for a chunk, as the buffer manager hands it out. -/
structure NewBuffer where
  key : BufferKey
  compressorType : CompressorType
  size_pos : 0 < key.size

/-- `KeyEqualIgnoreVersion` -/
def keyEqualIgnoreVersion (k k' : DbKey) : Bool :=
  k.dsk = k'.dsk && k.coords.length = k'.coords.length && k.attId = k'.attId && k.coords = k'.coords

section Copy

variable (a : NewVersion α) (blocks : Blocks α) (attr : AttributeDesc) (src : ConstChunk α)
  (hpos : src.box.first.length = a.dims.length)

/-- Where the source chunk lies in the array. -/
def copyPosition : List Int :=
  getChunkPositionFor a.dims src.box.first

/-- The key of the new version for the place of the source chunk. -/
def copyKey : DbKey :=
  fillKey a.renumber a.dsk attr (copyPosition a src)
    (getChunkPositionFor_ne_nil a.toDBArray hpos) a.id

/-- `DBArrayIterator::isDuplicateChunk` -/
def isDuplicateChunk : Except CopyFault Bool :=
  if a.versionId = 1 then .ok false
  else
    match a.attrs.attrs.find? fun attr => decide (attr.id = src.schema.attId) with
    | none => .error .noAttribute
    | some attrKey => do
        let key := copyKey a attrKey src hpos
        let it ← (lift (leastUpper a.db key)).mapError .scan
        if ← (lift (isEnd a.dsk it)).mapError .scan then .ok false
        else if a.id = src.schema.arrayId then .error (.chunkAlreadyExists (copyPosition a src))
        else if ¬src.schema.arrayId < a.id then .error .assertion
        else
          match src.knownChunk with
          | none => .ok false
          | some k => .ok (keyEqualIgnoreVersion key k)

variable (emptyBitmap collectBounds : Bool)

/-- The cells of the chunk that `ArrayIterator::copyChunk` fills. -/
def copiedCells (cells : Cells α) : Cells α :=
  let out := a.chunkBox (copyPosition a src)
  let emptyableToNonEmptyable := decide (a.attrs.attrs.length + 1 = src.schema.nAttrs)
  if src.isMaterialized && src.schema.hasOverlap == a.hasOverlap &&
      src.schema.isNullable == a.isNullable attr.id && !emptyableToNonEmptyable &&
      src.overlapBox.numberOfElements == out.numberOfElements && !collectBounds then
    -- the data is copied as it is
    cells
  else if emptyBitmap && !collectBounds then
    -- `makeClosure`
    cells
  else fun p =>
    -- the cells one by one, without the overlap if the array has none
    match if a.hasOverlap || src.box.contains p then cells p else none with
    | some x => some x
    | none =>
      -- where nothing is written an array without empty bitmap has the default value
      if !a.emptyable && out.contains p then some (a.defaultValue attr.id) else none

/-- `ArrayIterator::copyChunk`; `auxMeta` is what the new record has besides its buffer. -/
def copyInto (buffer : NewBuffer) (auxMeta : ChunkAuxMeta) (s : DBArrayIterator) :
    Except CopyFault (NewVersion α × Blocks α × DBArrayIterator) :=
  let coords := copyPosition a src
  let key := copyKey a attr src hpos
  if !a.contains src.box.first then .error .chunkOutOfBoundaries
  else
    -- `newChunk` enters the chunk without a buffer
    match RocksIndexMap.insert a.db key ⟨{ }, auxMeta⟩ with
    | (false, _) => .error (.chunkAlreadyExists coords)
    | (true, db) =>
      if ¬(a.attrs.attrs.length ≤ src.schema.nAttrs ∧
          src.schema.nAttrs ≤ a.attrs.attrs.length + 1) then .error .assertion
      else do
        let cells ← src.read db blocks
        let copied := copiedCells a attr src emptyBitmap collectBounds cells
        -- `unpinChunk` updates the record
        let value : BufferHandle := { compressorType := buffer.compressorType, key := buffer.key }
        let addr : PersistentAddress := ⟨s.addr.attId, coords, a.id⟩
        .ok ({ a with db := (update db key ⟨value, auxMeta⟩).2 },
          Function.update blocks buffer.key (some copied),
          { resetChunkRefs s with
            addr := addr, currChunk := some ⟨addr, buffer.key.size, auxMeta⟩ })

/-- `DBArrayIterator::copyChunk` -/
def copyChunk (buffer : NewBuffer) (auxMeta : ChunkAuxMeta) (s : DBArrayIterator) :
    Except CopyFault (NewVersion α × Blocks α × DBArrayIterator) := do
  if ← isDuplicateChunk a src hpos then
    let (s', haveChunk) ←
      (setPosition a.toDBArray s attr src.box.first hpos).mapError .scan
    if haveChunk then .ok (a, blocks, s') else .error .assertion
  else copyInto a blocks attr src hpos emptyBitmap collectBounds buffer auxMeta s

end Copy

/-! ## What is read of the source -/

section Source

variable {a : NewVersion α} {blocks : Blocks α} {attr : AttributeDesc} {src : ConstChunk α}
  {db : RocksDb DbKey} {k : DbKey}

variable {cells : Cells α} {e : Entry} {coords : List Int}

/-- What is pinned is the first entry of the index from the key on, if it has the same
first coordinate. -/
theorem pinEntry_eq (hc : RocksIndexMap.Closed db.store k.dsk) :
    pinEntry db k =
      match ((content db.store k.dsk).seek k).head? with
      | none => .error .keyNotExist
      | some e => if e.1.coords.head? = k.coords.head? then .ok e else .error .keyNotExist := by
  rcases RocksIndexMap.leastUpper_points hc rfl with ⟨it, hit, hl, x, rest, rfl, hx⟩
  rw [pinEntry, hit]
  cases hseek : (content db.store k.dsk).seek k with
  | nil =>
    simp [hx, isEnd, lift, record, Except.mapError, bind, Except.bind]
  | cons e l =>
    have he : e.1 < KeyMeta.keyMax k.dsk := hl e (hseek ▸ mem_cons_self)
    simp [he, isEnd, lift, record, Except.mapError, bind, Except.bind]

/-- `pinChunk` pins the newest entry of the chunk that is not above the version, and
nothing if there is none, if and only if the first entry from the key on is not one of
another chunk with the same first coordinate. -/
theorem pinEntry_newest_iff (hc : RocksIndexMap.Closed db.store k.dsk) :
    ((∀ e, pinEntry db k = .ok e ↔
        IsNewest (content db.store k.dsk).entries k.attId k.coords k.arrVerId e) ∧
      ((∀ e, ¬IsNewest (content db.store k.dsk).entries k.attId k.coords k.arrVerId e) →
        pinEntry db k = .error .keyNotExist)) ↔
    ∀ e ∈ ((content db.store k.dsk).seek k).head?,
      e.1.coords.head? = k.coords.head? → SameChunk e.1 k := by
  rw [pinEntry_eq hc]
  simp only [isNewest_iff]
  cases ((content db.store k.dsk).seek k).head? with
  | none => simp
  | some e =>
    by_cases hsame : SameChunk e.1 k
    · simp [hsame.2]
    · by_cases hhead : e.1.coords.head? = k.coords.head?
      · simp [hhead]
      · simp [hhead, hsame]

/-- An index with an entry for the chunk at (0, 10). -/
def samplePlane : RocksDb DbKey where
  store := (OrdMap.empty.insert (keyMax ⟨1, 1⟩) ⟨{ }, ⟨0, 0, 0⟩⟩).insert
    ⟨⟨1, 1⟩, 0, 1, [0, 10], by decide⟩ ⟨{ }, ⟨0, 0, 0⟩⟩
  deletedIndexes := []

theorem pinEntry_newest_sample :
    ∃ e, pinEntry samplePlane ⟨⟨1, 1⟩, 0, 3, [0, 10], by decide⟩ = .ok e ∧
      IsNewest (content samplePlane.store ⟨1, 1⟩).entries 0 [0, 10] 3 e := by
  have hclosed : RocksIndexMap.Closed samplePlane.store ⟨1, 1⟩ := by
    unfold RocksIndexMap.Closed
    decide
  have hnewest := pinEntry_newest_iff (k := ⟨⟨1, 1⟩, 0, 3, [0, 10], by decide⟩) hclosed
  exact ⟨_, rfl, ((hnewest.mpr (by decide)).1 _).mp rfl⟩

/-- For the chunk at (0, 0), which is not stored, the one at (0, 10) is pinned. -/
theorem pinEntry_other_chunk :
    ∃ e, pinEntry samplePlane ⟨⟨1, 1⟩, 0, 3, [0, 0], by decide⟩ = .ok e ∧ e.1.coords = [0, 10] :=
  ⟨_, rfl, rfl⟩

theorem pinChunk_eq (hk : db.store.get k = some e) (hne : k.coords ≠ [])
    (hcells : blocks e.value.key = some cells) :
    pinChunk db blocks k = .ok cells := by
  have hlt : k < KeyMeta.keyMax k.dsk := DbKey.lt_keyMax hne
  have hupper : leastUpper db k =
      .ok ((k, e) :: db.store.entries.filter fun x => decide (k < x.1)) := by
    rw [leastUpper, seek_of_get hk]
  simp [pinChunk, pinEntry, lift, hupper, record, isEnd,
    Except.mapError, bind, Except.bind, hlt, hcells]

namespace ConstChunk

theorem read_of_known (h : src.knownChunk = some k) :
    src.read db blocks = pinChunk db blocks k := by
  induction src with
  | cached schema key last overlapBox =>
    rw [knownChunk, Option.some.injEq] at h
    rw [read, h]
  | delegate schema isClone cells input ih =>
    cases isClone with
    | true => exact ih h
    | false => cases h
  | other => cases h

/-- A chunk that is new does not depend on what is stored. -/
theorem read_of_unknown (h : src.knownChunk = none) :
    ∃ cells, ∀ db blocks, src.read db blocks = .ok cells := by
  induction src with
  | cached => cases h
  | delegate schema isClone cells input ih =>
    cases isClone with
    | true => exact ih h
    | false => exact ⟨cells, fun _ _ => rfl⟩
  | other schema box overlapBox materialized cells => exact ⟨cells, fun _ _ => rfl⟩

end ConstChunk

variable (a)

/-- A source chunk that can be read.  If it comes from disk, its record is there with
its block, and this instance serves it. -/
structure ReadFrom (blocks : Blocks α) (src : ConstChunk α) : Prop where
  stored : ∀ k, src.knownChunk = some k → ∃ e cells, a.db.store.get k = some e ∧
    e.value.isNull = false ∧ blocks e.value.key = some cells ∧
    (k.dsk = a.dsk → a.isResponsibleFor (a.addressOf (k, e)) e.auxMeta.primaryInstanceId = true)
  inside : ∀ cells, src.read a.db blocks = .ok cells →
    ∀ p, (cells p).isSome → src.overlapBox.contains p
  filled : src.schema.emptyable = false → ∀ cells, src.read a.db blocks = .ok cells →
    ∀ p, src.overlapBox.contains p → (cells p).isSome

/-- The array that is written is a new version, and the source chunk is of an earlier
array whose schema conforms to it. -/
structure Conforms (blocks : Blocks α) (attr : AttributeDesc) (emptyBitmap : Bool)
    (src : ConstChunk α) : Prop where
  newest : ∀ e ∈ a.records.entries, e.1.arrVerId < a.id
  filled : a.emptyable = false → ∀ e ∈ a.records.entries, e.2.value.isNull = false →
    ∀ cells, blocks e.2.value.key = some cells →
    ∀ p, (a.chunkBox e.1.coords).contains p → (cells p).isSome
  attr_mem : attr ∈ a.attrs.attrs
  attId : src.schema.attId = attr.id
  earlier : src.schema.arrayId < a.id
  length : src.box.first.length = a.dims.length
  onGrid : copyPosition a src = src.box.first
  inBounds : a.contains src.box.first
  emptyable : a.emptyable → src.schema.emptyable
  nAttrs : src.schema.nAttrs + a.emptyable.toNat = a.attrs.attrs.length + src.schema.emptyable.toNat
  bitmap : emptyBitmap → a.emptyable
  inside : a.hasOverlap = false → ∀ p, (a.chunkBox (copyPosition a src)).contains p →
    src.overlapBox.contains p → src.box.contains p
  sameBox : src.schema.hasOverlap = a.hasOverlap →
    src.overlapBox.numberOfElements = (a.chunkBox (copyPosition a src)).numberOfElements →
    src.overlapBox = a.chunkBox (copyPosition a src)

/-- A chunk of the array holds the cells of the source; without an empty bitmap, where
the source has no cell it has the default value. -/
def Holds (attr : AttributeDesc) (coords : List Int) (cells copied : Cells α) : Prop :=
  ∀ p, (a.chunkBox coords).contains p →
    copied p = (cells p).or (if a.emptyable then none else some (a.defaultValue attr.id))

variable {a}

/-- Cells that are there for every position, if the array has no empty bitmap. -/
theorem holds_self
    (h : a.emptyable = false → ∀ p, (a.chunkBox coords).contains p → (cells p).isSome) :
    Holds a attr coords cells cells := by
  intro p hp
  cases he : a.emptyable with
  | true => simp
  | false =>
    rcases Option.isSome_iff_exists.mp (h he p hp) with ⟨x, hx⟩
    rw [hx, Option.some_or]

variable {emptyBitmap : Bool} {d : DataStoreKey} {store : OrdMap DbKey Entry}

/-- The cells that are copied are those of the source, on each of the three ways. -/
theorem copiedCells_holds (hc : Conforms a blocks attr emptyBitmap src) (hr : ReadFrom a blocks src)
    (hread : src.read a.db blocks = .ok cells) (collectBounds : Bool) :
    Holds a attr (copyPosition a src) cells
      (copiedCells a attr src emptyBitmap collectBounds cells) := by
  unfold copiedCells
  simp only
  split
  · rename_i hcopy
    simp only [Bool.and_eq_true, beq_iff_eq, Bool.not_eq_true', decide_eq_false_iff_not] at hcopy
    apply holds_self
    intro he p hp
    -- no attribute is lost, so the source has no empty bitmap either
    have hsrc : src.schema.emptyable = false := by
      have hn := hc.nAttrs
      cases hs : src.schema.emptyable with
      | false => rfl
      | true =>
        rw [he, hs, Bool.toNat_false, Bool.toNat_true] at hn
        omega
    have hbox := hc.sameBox hcopy.1.1.1.1.2 hcopy.1.2
    exact hr.filled hsrc cells hread p (hbox ▸ hp)
  · split
    · rename_i hbitmap
      rw [Bool.and_eq_true] at hbitmap
      apply holds_self
      intro he
      rw [hc.bitmap hbitmap.1] at he
      cases he
    · intro p hp
      have hkeep : (if (a.hasOverlap || src.box.contains p) = true then cells p else none) =
          cells p := by
        split
        · rfl
        · rename_i hout
          rw [Bool.or_eq_true, not_or, Bool.not_eq_true] at hout
          cases hcell : cells p with
          | none => rfl
          | some x =>
            have hin := hr.inside cells hread p (by rw [hcell, Option.isSome_some])
            exact (hout.2 (hc.inside hout.1 p hp hin)).elim
      simp only [hkeep, hp]
      cases cells p with
      | some x => rfl
      | none => cases a.emptyable <;> rfl

/-! ## The decision -/

theorem keyEqualIgnoreVersion_iff {k k' : DbKey} :
    keyEqualIgnoreVersion k k' = true ↔ k.dsk = k'.dsk ∧ SameChunk k k' := by
  simp only [keyEqualIgnoreVersion, Bool.and_eq_true, decide_eq_true_iff]
  constructor
  · rintro ⟨⟨⟨hd, -⟩, ha⟩, hco⟩
    exact ⟨hd, ha, hco⟩
  · rintro ⟨hd, ha, hco⟩
    exact ⟨⟨⟨hd, by rw [hco]⟩, ha⟩, hco⟩

/-- The source chunk was read from the place in the array it is to be copied to. -/
def ReadHere (a : NewVersion α) (attr : AttributeDesc) (src : ConstChunk α) (k : DbKey) : Prop :=
  src.knownChunk = some k ∧ k.dsk = a.dsk ∧ k.attId = encodeAttributeID a.renumber attr ∧
    k.coords = copyPosition a src

theorem coords_ne_nil (hlen : src.box.first.length = a.dims.length)
    (h : src.knownChunk = some k) : k.coords ≠ [] := by
  rw [ConstChunk.knownChunk_coords h]
  intro hnil
  rw [hnil] at hlen
  exact a.dims_ne_nil (length_eq_zero_iff.mp hlen.symm)

/-- A record of the array the source was read from. -/
theorem ReadHere.mem_records (h : ReadHere a attr src k)
    (hlen : src.box.first.length = a.dims.length) (he : a.db.store.get k = some e) :
    (k, e) ∈ a.records.entries := by
  refine mem_content.mpr ⟨mem_entries.mpr he, h.2.1, ?_⟩
  rw [← h.2.1]
  exact (DbKey.lt_keyMax (coords_ne_nil hlen h.1)).ne

theorem findattr_eq (hattr : attr ∈ a.attrs.attrs) :
    (a.attrs.attrs.find? fun x => decide (x.id = attr.id)) = some attr := by
  cases hf : a.attrs.attrs.find? fun x => decide (x.id = attr.id) with
  | none =>
    rw [find?_eq_none] at hf
    exact (hf attr hattr (decide_eq_true rfl)).elim
  | some x =>
    have hx := find?_some hf
    rw [decide_eq_true_iff] at hx
    rw [a.attrs.eq_of_id x (mem_of_find?_eq_some hf) attr hattr hx]

/-- A version sees the record it wrote itself. -/
theorem isNewest_own (hk : k.dsk = d) (hne : k.coords ≠ []) (hget : store.get k = some e) :
    IsNewest (content store d).entries k.attId k.coords k.arrVerId (k, e) := by
  have hmax : k ≠ KeyMeta.keyMax d := hk ▸ (DbKey.lt_keyMax hne).ne
  exact ⟨mem_content.mpr ⟨mem_entries.mpr hget, hk, hmax⟩, rfl, rfl, le_rfl, fun x _ _ _ hx => hx⟩

theorem copyKey_coords_ne_nil (hlen : src.box.first.length = a.dims.length) :
    (copyKey a attr src hlen).coords ≠ [] :=
  getChunkPositionFor_ne_nil a.toDBArray hlen

variable {collectBounds : Bool} {buffer : NewBuffer} {auxMeta : ChunkAuxMeta} {s : DBArrayIterator}

section

variable (hc : Conforms a blocks attr emptyBitmap src) (hr : ReadFrom a blocks src)

include hc hr

theorem isDuplicateChunk_eq (ha : a.WellIndexed) :
    ∃ b, isDuplicateChunk a src hc.length = .ok b ∧
      (b = true ↔ a.versionId ≠ 1 ∧ ∃ k, ReadHere a attr src k) := by
  rw [isDuplicateChunk]
  by_cases hfirst : a.versionId = 1
  · rw [if_pos hfirst]
    exact ⟨false, rfl, by simp [hfirst]⟩
  rw [if_neg hfirst, hc.attId, findattr_eq hc.attr_mem]
  rcases leastUpper_points (k := copyKey a attr src hc.length) ha.closed rfl with
    ⟨it, hit, hp⟩
  have hend : isEnd a.dsk it =
      .ok (a.records.seek (copyKey a attr src hc.length)).isEmpty := hp.isEnd
  simp only [lift, hit, hend, Except.mapError, bind, Except.bind]
  -- the record of a chunk that was read here is not before the key of the new version
  have hseek : ∀ k, ReadHere a attr src k → a.records.seek (copyKey a attr src hc.length) ≠ [] := by
    intro k hk hnil
    rcases hr.stored k hk.1 with ⟨e, -, he, -⟩
    have hmem := hk.mem_records hc.length he
    have hle : copyKey a attr src hc.length ≤ k :=
      le_of_coords hk.2.1.symm (by rw [hk.2.2.2]; rfl) hk.2.2.1.symm
        (.inr ⟨hk.2.2.2.symm, (hc.newest _ hmem).le⟩)
    have hin := mem_seek.mpr ⟨hmem, hle⟩
    rw [hnil] at hin
    cases hin
  by_cases hnil : a.records.seek (copyKey a attr src hc.length) = []
  · rw [if_pos (isEmpty_iff.mpr hnil)]
    refine ⟨false, rfl, ?_⟩
    simp only [Bool.false_eq_true, false_iff, not_and, not_exists]
    exact fun _ k hk => hseek k hk hnil
  · rw [if_neg (fun h => hnil (isEmpty_iff.mp h)), if_neg hc.earlier.ne',
      if_neg (not_not.mpr hc.earlier)]
    cases hknown : src.knownChunk with
    | none => exact ⟨false, rfl, by simp [ReadHere, hknown]⟩
    | some k =>
      refine ⟨_, rfl, ?_⟩
      rw [keyEqualIgnoreVersion_iff]
      constructor
      · rintro ⟨hd, hatt, hco⟩
        exact ⟨hfirst, k, hknown, hd.symm, hatt.symm, hco.symm⟩
      · rintro ⟨-, k', hk', hd, hatt, hco⟩
        rw [hknown, Option.some.injEq] at hk'
        subst hk'
        exact ⟨hd.symm, hatt.symm, hco.symm⟩

/-! ## The two ways -/

omit hr in
/-- The new version has no record of the chunk yet. -/
theorem get_copyKey : a.db.store.get (copyKey a attr src hc.length) = none := by
  cases hget : a.db.store.get (copyKey a attr src hc.length) with
  | none => rfl
  | some e =>
    have hnew := isNewest_own rfl (copyKey_coords_ne_nil hc.length) hget
    exact ((hc.newest _ hnew.mem).ne rfl).elim

/-- A store with one more record. -/
def withRecord (db : RocksDb DbKey) (k : DbKey) (e : Entry) : RocksDb DbKey :=
  { db with store := db.store.insert k e }

omit hc hr in
theorem get_withRecord (e : Entry) (k' : DbKey) :
    (withRecord db k e).store.get k' = if k' = k then some e else db.store.get k' := by
  rw [withRecord, get_insert]
  congr

/-- The record that is made for the new chunk does not change what is read. -/
theorem read_insert (hread : src.read a.db blocks = .ok cells) (e : Entry) :
    src.read (withRecord a.db (copyKey a attr src hc.length) e) blocks = .ok cells := by
  cases hknown : src.knownChunk with
  | none =>
    rcases ConstChunk.read_of_unknown hknown with ⟨own, hown⟩
    rw [hown, ← hread, hown]
  | some k =>
    rcases hr.stored k hknown with ⟨e', cells', hget, -, hcells, -⟩
    have hne := coords_ne_nil hc.length hknown
    have hk : k ≠ copyKey a attr src hc.length := by
      rintro rfl
      rw [get_copyKey hc] at hget
      cases hget
    rw [ConstChunk.read_of_known hknown] at hread ⊢
    rw [pinChunk_eq hget hne hcells] at hread
    have hget' : (withRecord a.db (copyKey a attr src hc.length) e).store.get k = some e' := by
      rw [get_withRecord, if_neg hk, hget]
    rw [pinChunk_eq hget' hne hcells, hread]

/-- A chunk that is not a duplicate becomes what the version sees. -/
theorem copyInto_eq (hread : src.read a.db blocks = .ok cells) (collectBounds : Bool)
    (buffer : NewBuffer) (auxMeta : ChunkAuxMeta) (s : DBArrayIterator) :
    ∃ a' s', copyInto a blocks attr src hc.length emptyBitmap collectBounds buffer auxMeta s =
        .ok (a', Function.update blocks buffer.key
          (some (copiedCells a attr src emptyBitmap collectBounds cells)), s') ∧
      ∃ e, IsNewest a'.records.entries (encodeAttributeID a.renumber attr)
          (copyPosition a src) a.id e ∧
        e.2.value.isNull = false ∧ e.2.value.key = buffer.key := by
  let key := copyKey a attr src hc.length
  let db₁ := withRecord a.db key (Entry.atRest ⟨{ }, auxMeta⟩)
  let e : Entry :=
    Entry.atRest ⟨{ compressorType := buffer.compressorType, key := buffer.key }, auxMeta⟩
  have hinsert : RocksIndexMap.insert a.db key ⟨{ }, auxMeta⟩ = (true, db₁) := by
    rw [RocksIndexMap.insert, get_copyKey hc]
    rfl
  have hread₁ : src.read db₁ blocks = .ok cells := read_insert hc hr hread _
  have hattrs : a.attrs.attrs.length ≤ src.schema.nAttrs ∧
      src.schema.nAttrs ≤ a.attrs.attrs.length + 1 := by
    have hn := hc.nAttrs
    have hle : src.schema.emptyable.toNat ≤ 1 := Bool.toNat_le _
    cases he : a.emptyable with
    | false =>
      rw [he, Bool.toNat_false] at hn
      omega
    | true =>
      rw [he, hc.emptyable he] at hn
      omega
  have hget : (withRecord db₁ key e).store.get key = some e := by
    rw [get_withRecord, if_pos rfl]
  let addr : PersistentAddress := ⟨s.addr.attId, copyPosition a src, a.id⟩
  refine ⟨{ a with db := withRecord db₁ key e }, { resetChunkRefs s with
      addr := addr, currChunk := some ⟨addr, buffer.key.size, auxMeta⟩ }, ?_, (key, e),
    isNewest_own rfl (copyKey_coords_ne_nil hc.length) hget, ?_, rfl⟩
  · unfold copyInto
    simp only [hc.inBounds]
    rw [hinsert]
    simp only [if_neg (not_not.mpr hattrs), hread₁]
    rfl
  · simp [e, Entry.atRest, BufferHandle.resetSlotGenCount, BufferHandle.isNull, BufferKey.same,
      buffer.size_pos.ne']

omit hr in
/-- A chunk that is a duplicate is served by the newest record of its place. -/
theorem setPosition_newest (ha : a.WellIndexed) {s : DBArrayIterator}
    (haddr : s.addr.attId = attr.id) {e : DbKey × Entry}
    (he : IsNewest a.records.entries (encodeAttributeID a.renumber attr)
      (copyPosition a src) a.id e) :
    ∃ s', setPosition a.toDBArray s attr src.box.first hc.length = .ok (s', a.serves e) := by
  rcases DBArrayIterator.setPosition_eq ha hc.attr_mem haddr hc.length with
    ⟨s', found, hs', hfound, -⟩
  have heq : found = a.serves e := by
    apply Bool.eq_iff_iff.mpr
    rw [hfound]
    constructor
    · rintro ⟨e', he', hserves⟩
      let key := copyKey a attr src hc.length
      have hhead := ((isNewest_iff (k := key)).mp he).1.symm.trans
        ((isNewest_iff (k := key)).mp he').1
      rw [Option.some.inj hhead]
      exact hserves
    · exact fun hserves => ⟨e, he, hserves⟩
  exact ⟨s', heq ▸ hs'⟩

/-! ## What the new version shows -/

/-- What the new version shows for the place of the source chunk after `copyChunk`: the
cells of the source, and, if they were not copied, by the record they were read from. -/
def ShowsSource (a : NewVersion α) (blocks : Blocks α) (attr : AttributeDesc)
    (src : ConstChunk α) (hpos : src.box.first.length = a.dims.length)
    (emptyBitmap collectBounds : Bool) (buffer : NewBuffer) (auxMeta : ChunkAuxMeta)
    (s : DBArrayIterator) : Prop :=
  ∃ cells a' blocks' s', src.read a.db blocks = .ok cells ∧
    copyChunk a blocks attr src hpos emptyBitmap collectBounds buffer auxMeta s =
      .ok (a', blocks', s') ∧
    ∃ e copied, IsNewest a'.records.entries (encodeAttributeID a.renumber attr)
        (copyPosition a src) a.id e ∧
      e.2.value.isNull = false ∧ blocks' e.2.value.key = some copied ∧
      Holds a attr (copyPosition a src) cells copied ∧
      (isDuplicateChunk a src hpos = .ok true → src.knownChunk = some e.1)

theorem exists_read : ∃ cells, src.read a.db blocks = .ok cells := by
  cases hknown : src.knownChunk with
  | none =>
    rcases ConstChunk.read_of_unknown hknown with ⟨cells, hcells⟩
    exact ⟨cells, hcells _ _⟩
  | some k =>
    rcases hr.stored k hknown with ⟨e, cells, hget, -, hcells, -⟩
    refine ⟨cells, ?_⟩
    rw [ConstChunk.read_of_known hknown, pinChunk_eq hget (coords_ne_nil hc.length hknown) hcells]

omit hr in
/-- The record a chunk was read from is the one the new version sees, if no newer one
hides it. -/
theorem ReadHere.isNewest_iff (h : ReadHere a attr src k) (he : a.db.store.get k = some e) :
    IsNewest a.records.entries (encodeAttributeID a.renumber attr) (copyPosition a src) a.id
      (k, e) ↔ ¬Hidden a.records.entries a.id k := by
  have hmem := h.mem_records hc.length he
  constructor
  · rintro hnewest ⟨x, hx, hsame, hlt, hle⟩
    exact hlt.not_ge (hnewest.newest x hx (hsame.1.trans h.2.2.1) (hsame.2.trans h.2.2.2) hle)
  · intro hhidden
    refine ⟨hmem, h.2.2.1, h.2.2.2, (hc.newest _ hmem).le, ?_⟩
    intro x hx hxa hxc hxv
    apply not_lt.mp
    intro hlt
    exact hhidden ⟨x, hx, ⟨hxa.trans h.2.2.1.symm, hxc.trans h.2.2.2.symm⟩, hlt, hxv⟩

theorem shows_of_copied (hdup : isDuplicateChunk a src hc.length = .ok false) :
    ShowsSource a blocks attr src hc.length emptyBitmap collectBounds buffer auxMeta s := by
  rcases exists_read hc hr with ⟨cells, hread⟩
  rcases copyInto_eq hc hr hread collectBounds buffer auxMeta s with
    ⟨a', s', hcopy, e, hnewest, hnull, hkey⟩
  have hrun : copyChunk a blocks attr src hc.length emptyBitmap collectBounds buffer auxMeta s =
      .ok (a', Function.update blocks buffer.key
        (some (copiedCells a attr src emptyBitmap collectBounds cells)), s') := by
    rw [copyChunk, hdup]
    exact hcopy
  refine ⟨cells, a', _, s', hread, hrun, e, _, hnewest, hnull, ?_,
    copiedCells_holds hc hr hread collectBounds, ?_⟩
  · rw [hkey, Function.update_self]
  · rw [hdup]
    exact nofun

/-- Where nothing is copied, the record the source was read from has to be the one the
version sees. -/
theorem shows_of_skipped_iff (ha : a.WellIndexed) (haddr : s.addr.attId = attr.id)
    (hdup : isDuplicateChunk a src hc.length = .ok true) (hk : ReadHere a attr src k) :
    ShowsSource a blocks attr src hc.length emptyBitmap collectBounds buffer auxMeta s ↔
      ¬Hidden a.records.entries a.id k := by
  rcases hr.stored k hk.1 with ⟨e₀, cells₀, hget, hnull, hcells, hserves⟩
  have hmem := hk.mem_records hc.length hget
  have hrun : copyChunk a blocks attr src hc.length emptyBitmap collectBounds buffer auxMeta s = (do
        let (s', haveChunk) ← (setPosition a.toDBArray s attr src.box.first
          hc.length).mapError .scan
        if haveChunk then .ok (a, blocks, s') else .error .assertion) := by
    rw [copyChunk, hdup]
    rfl
  rw [← hk.isNewest_iff hc hget]
  constructor
  · rintro ⟨cells, a', blocks', s', -, hcopy, e, copied, hnewest, -, -, -, hsame⟩
    have hkey := hsame hdup
    rw [hk.1, Option.some.injEq] at hkey
    -- nothing was written, so the record that is seen was there before
    have ha' : a' = a := by
      rw [hrun] at hcopy
      cases hset : setPosition a.toDBArray s attr src.box.first hc.length with
      | error f =>
        rw [hset] at hcopy
        cases hcopy
      | ok x =>
        rcases x with ⟨t, _ | _⟩
        · rw [hset] at hcopy
          cases hcopy
        · rw [hset] at hcopy
          cases hcopy
          rfl
    rw [ha'] at hnewest
    have hval := mem_entries.mp (mem_content.mp hnewest.mem).1
    rw [← hkey, hget, Option.some.injEq] at hval
    have he : (k, e₀) = e := Prod.ext hkey hval
    rw [he]
    exact hnewest
  · intro hnewest
    rcases setPosition_newest hc ha haddr hnewest with ⟨s', hset⟩
    have hserve : a.serves (k, e₀) = true := by
      rw [DBArray.serves, hnull, hserves hk.2.1]
      rfl
    refine ⟨cells₀, a, blocks, s', ?_, ?_, (k, e₀), cells₀, hnewest, hnull, hcells, ?_, ?_⟩
    · rw [ConstChunk.read_of_known hk.1, pinChunk_eq hget (coords_ne_nil hc.length hk.1) hcells]
    · rw [hrun, hset, hserve]
      rfl
    · apply holds_self
      intro he
      rw [← hk.2.2.2]
      exact hc.filled he _ hmem hnull cells₀ hcells
    · exact fun _ => hk.1

end

/-- The new version shows the source chunk, unless the chunk was read from the same
place of the same array and a newer record of that place hides the one it was read
from: then nothing is copied, and the version shows the newer record. -/
theorem copyChunk_shows_source_iff (ha : a.WellIndexed)
    (hc : Conforms a blocks attr emptyBitmap src) (hr : ReadFrom a blocks src)
    (haddr : s.addr.attId = attr.id) :
    ShowsSource a blocks attr src hc.length emptyBitmap collectBounds buffer auxMeta s ↔
      (a.versionId = 1 ∨ ∀ k, ReadHere a attr src k → ¬Hidden a.records.entries a.id k) := by
  rcases isDuplicateChunk_eq hc hr ha with ⟨dup, hdup, hiff⟩
  cases dup with
  | false =>
    refine ⟨fun _ => ?_, fun _ => shows_of_copied hc hr hdup⟩
    by_contra hnot
    rw [not_or, not_forall] at hnot
    rcases hnot.2 with ⟨k, hk⟩
    rw [Classical.not_imp] at hk
    exact Bool.false_ne_true (hiff.mpr ⟨hnot.1, k, hk.1⟩)
  | true =>
    rcases hiff.mp rfl with ⟨hver, k, hk⟩
    rw [shows_of_skipped_iff hc hr ha haddr hdup hk]
    constructor
    · intro hhidden
      right
      intro k' hk'
      have hkey := hk.1.symm.trans hk'.1
      rw [Option.some.injEq] at hkey
      exact hkey ▸ hhidden
    · rintro (h | h)
      · exact (hver h).elim
      · exact h k hk

end Source

/-- One chunk, stored in the versions 1 and 2 of an array. -/
def sampleHistory : RocksDb DbKey where
  store :=
    [(1, 4096), (2, 8192)].foldl
      (fun store x => store.insert (sampleRecord x.1)
        ⟨{ key := ⟨⟨1, 1⟩, x.2, 10, 10, 4096⟩ }, ⟨0, 1, 1⟩⟩)
      (OrdMap.empty.insert (keyMax ⟨1, 1⟩) ⟨{ }, ⟨0, 0, 0⟩⟩)
  deletedIndexes := []

/-- The version 3 that is written. -/
def sampleVersion : NewVersion Nat where
  toDBArray := { sampleArray with db := sampleHistory }
  versionId := 3
  overlaps := [0]
  isNullable _ := false
  defaultValue _ := 0

/-- A chunk with one cell. -/
def sampleCells (x : Nat) : Cells Nat :=
  fun p => if p = [0] then some x else none

/-- Version 1 stored the value 1, version 2 the value 2. -/
def sampleBlocks : Blocks Nat :=
  fun k => if k.off = 4096 then some (sampleCells 1)
    else if k.off = 8192 then some (sampleCells 2) else none

/-- The chunk that was read from a version. -/
def sampleSource (version : Nat) : ConstChunk Nat :=
  .cached ⟨version, 0, false, false, true, 2⟩ (sampleRecord version) [4] ⟨[0], [4]⟩

def sampleBuffer : NewBuffer := ⟨⟨⟨1, 1⟩, 12288, 10, 10, 4096⟩, .none, by decide⟩

theorem sampleVersion_wellIndexed : sampleVersion.WellIndexed where
  marker := by decide +kernel
  stored := by
    unfold StoredBy
    decide +kernel
  bounds := by decide +kernel

theorem sampleSource_read :
    (sampleSource 2).read sampleVersion.db sampleBlocks = .ok (sampleCells 2) :=
  rfl

theorem sampleSource_conforms :
    Conforms sampleVersion sampleBlocks ⟨0, false⟩ false (sampleSource 2) where
  newest := by decide +kernel
  filled h := by cases h
  attr_mem := by decide
  attId := rfl
  earlier := by decide
  length := rfl
  onGrid := by decide
  inBounds := by decide
  emptyable _ := rfl
  nAttrs := rfl
  bitmap h := by cases h
  inside _ p _ h := h
  sameBox _ _ := by decide

theorem sampleSource_readFrom : ReadFrom sampleVersion sampleBlocks (sampleSource 2) where
  stored k hk := by
    cases hk
    exact ⟨_, _, rfl, rfl, rfl, fun _ => rfl⟩
  inside cells hcells p hp := by
    rw [sampleSource_read, Except.ok.injEq] at hcells
    rw [← hcells, sampleCells] at hp
    split at hp
    · rename_i hzero
      rw [hzero]
      decide
    · cases hp
  filled h := by cases h

/-- The newest chunk stored again is not copied, and version 3 shows it. -/
theorem copyChunk_shows_newest :
    ShowsSource sampleVersion sampleBlocks ⟨0, false⟩ (sampleSource 2) rfl false false
      sampleBuffer ⟨0, 1, 1⟩ (DBArrayIterator.construct sampleVersion.toDBArray 0) := by
  apply (copyChunk_shows_source_iff sampleVersion_wellIndexed sampleSource_conforms
    sampleSource_readFrom rfl).mpr
  right
  intro k hk
  cases hk.1
  decide +kernel

/-- The chunk of version 1 stored again is not copied either, and version 3 shows what
version 2 stored. -/
theorem copyChunk_loses_source :
    (sampleSource 1).read sampleVersion.db sampleBlocks = .ok (sampleCells 1) ∧
    (∃ s, copyChunk sampleVersion sampleBlocks ⟨0, false⟩ (sampleSource 1) rfl false false
      sampleBuffer ⟨0, 1, 1⟩ (DBArrayIterator.construct sampleVersion.toDBArray 0) =
        .ok (sampleVersion, sampleBlocks, s)) ∧
    ∃ e, IsNewest sampleVersion.records.entries (encodeAttributeID true ⟨0, false⟩) [0] 3 e ∧
      sampleBlocks e.2.value.key = some (sampleCells 2) ∧
      sampleCells 1 [0] = some 1 ∧ sampleCells 2 [0] = some 2 :=
  ⟨rfl, ⟨_, rfl⟩, (fillKey true ⟨1, 1⟩ ⟨0, false⟩ [0] (by decide) 2,
      ⟨{ key := ⟨⟨1, 1⟩, 8192, 10, 10, 4096⟩ }, ⟨0, 1, 1⟩⟩),
    ⟨by decide +kernel, rfl, rfl, by decide, by decide +kernel⟩, rfl, rfl, rfl⟩

end SciDB.Index
