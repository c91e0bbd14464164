import SciDB.Lib.Bits
import SciDB.DataStore.FreelistFile

/-!
# The data store

`DataStore` hands out space in a data file as blocks of a power-of-two size.  It
splits larger free blocks, merges buddies when a block is freed, doubles the file
when no free block is large enough, and keeps the free blocks in lists that are
written to a file of their own.  The data file is created and opened only when it
is needed.

The definitions follow `src/util/DataStore.cpp` of a debug build.  Sizes wrap
around at `2 ^ 64` as `size_t` does; offsets are kept as 64-bit patterns, so that
their order is that of `off_t` below `2 ^ 63`.  The files on disk are part of the
state; no file call fails.
-/

namespace SciDB.DataStore

open Buckets Bytes

/-- `sizeof(DiskChunkHeader)` -/
def headerSize : Nat := 16

/-- The configuration: `CONFIG_STORAGE_MIN_ALLOC_SIZE_BYTES`, a positive `int`,
and `CONFIG_DATASTORE_PUNCH_HOLES`. -/
structure Config where
  minAllocSize : Nat
  punchHoles : Bool
  minAllocSize_pos : 0 < minAllocSize
  minAllocSize_lt : minAllocSize < 2 ^ 31

/-- The members of a `DataStore` and its two files on disk: the size of the data
file and the bytes of the free-list file, if they exist. -/
structure Store where
  isFileCreated : Bool
  fileOpen : Bool
  dirty : Bool
  fldirty : Bool
  frees : Nat
  largestFreeChunk : Nat
  allocatedSize : Nat
  freelists : Freelists
  dataFile : Option Nat
  freelistFile : Option (List UInt8)

/-- The or-and-shift chain of `roundUpPowerOf2`. -/
def smear (r : Nat) : Nat :=
  let r := r ||| r >>> 1
  let r := r ||| r >>> 2
  let r := r ||| r >>> 4
  let r := r ||| r >>> 8
  let r := r ||| r >>> 16
  r ||| r >>> 32

/-- `roundUpPowerOf2` -/
def roundUpPowerOf2 (size : Nat) : Nat :=
  (smear ((size + 2 ^ 64 - 1) % 2 ^ 64) + 1) % 2 ^ 64

/-! ## Files -/

variable (s : Store)

/-- `invalidateFreelistFile` -/
def invalidateFreelistFile : Store :=
  if ¬ s.isFileCreated then s
  else if ¬ s.fldirty then { s with freelistFile := some (le 8 0), fldirty := true }
  else s

/-- `checkFileOpen` -/
def checkFileOpen : Store :=
  if ¬ s.fileOpen then
    let size := s.dataFile.getD 0
    { s with
      fileOpen := true
      isFileCreated := true
      dataFile := some (if size < s.allocatedSize then s.allocatedSize else size) }
  else s

/-- `persistFreelists` -/
def persistFreelists : Store :=
  if ¬ s.isFileCreated then s
  else { s with freelistFile := some (freelistBytes s.freelists), fldirty := false }

/-- `flush` -/
def flush : Except Fault Store :=
  require (s.dirty → s.fileOpen) (.assertion "_file") <|
    let s := { s with dirty := false }
    .ok (if s.fldirty then persistFreelists s else s)

/-- `writeData` of `len` bytes: a write past its end extends the data file. -/
def writeData (off len : Nat) : Store :=
  let s := checkFileOpen s
  { s with dataFile := s.dataFile.map (max · (off + headerSize + len)), dirty := true }

/-! ## Free lists -/

/-- `calcLargestFreeChunk` -/
def calcLargestFreeChunk : Store :=
  { s with largestFreeChunk := largestKey s.freelists }

/-- The loop of `makeMoreSpace`.  The loop ends within 64 rounds or, once
`_allocatedSize` has wrapped around to 0, never. -/
def growLoop (request : Nat) : (rounds : Nat) → Store → Except Fault Store
  | 0, _ => .error .endless
  | rounds + 1, s =>
    if request > s.largestFreeChunk then
      let doubled := s.allocatedSize * 2 % 2 ^ 64
      growLoop request rounds
        { s with
          freelists := add s.freelists s.allocatedSize s.allocatedSize
          largestFreeChunk := s.allocatedSize
          allocatedSize := doubled
          dataFile := if s.fileOpen then some doubled else s.dataFile }
    else .ok s

/-- `makeMoreSpace` -/
def makeMoreSpace (request : Nat) : Except Fault Store :=
  require (request > s.largestFreeChunk) (.assertion "request > _largestFreeChunk") <|
  require (s.allocatedSize ≥ s.largestFreeChunk)
    (.assertion "_allocatedSize >= _largestFreeChunk") <|
    growLoop request 65 s

/-- The smallest element of a non-empty bucket. -/
def bucketBegin (bucket : Finset Nat) : Except Fault Nat :=
  match bucket.min with
  | ⊤ => .error (.assertion "it->second.size() > 0")
  | (off : Nat) => .ok off

/-- `searchFreelist`: the offset found and the remaining free lists.  After 64
doublings the request is 0 and the recursion never ends. -/
def searchFreelist (largestFreeChunk : Nat) :
    (levels : Nat) → (request : Nat) → Freelists → Except Fault (Nat × Freelists)
  | 0, _, _ => .error .endless
  | levels + 1, request, freelists =>
    require (request ≤ largestFreeChunk) (.assertion "request <= _largestFreeChunk") <|
      match freelists[request]? with
      | some bucket => do
          let ret ← bucketBegin bucket
          return (ret, remove freelists request ret)
      | none => do
          let (ret, freelists') ←
            searchFreelist largestFreeChunk levels (request * 2 % 2 ^ 64) freelists
          return (ret, add freelists' request ((ret + request) % 2 ^ 64))

/-- The offset of the buddy of a block. -/
def buddyOff (bucket off : Nat) : Nat :=
  if off % (2 * bucket) = 0 then off + bucket else off - bucket

/-- The recursion of `addToFreelist`. -/
def addToFreelist : (levels : Nat) → (bucket off : Nat) → Freelists → Except Fault Freelists
  | 0, _, _, _ => .error .endless
  | levels + 1, bucket, off, freelists =>
    require (roundUpPowerOf2 bucket = bucket) (.assertion "roundUpPowerOf2(bucket) == bucket") <|
    require (off % bucket = 0) (.assertion "off % bucket == 0") <|
      let parent := bucket * 2 % 2 ^ 64
      require (parent ≠ 0) .divisionByZero <|
        let buddy := buddyOff bucket off
        match freelists[bucket]? with
        | some offsets =>
          if buddy ∈ offsets then
            let merged := if off < buddy then off else buddy
            addToFreelist levels parent merged (remove freelists bucket buddy)
          else .ok (add freelists bucket off)
        | none => .ok (add freelists bucket off)

/-- `isParentBlockFree` -/
def isParentBlockFree (freelists : Freelists) (off size : Nat) : Bool :=
  freelists.toList.any fun bucket =>
    decide (bucket.1 > size) && decide (off - off % bucket.1 ∈ bucket.2)

/-- `verifyFreelistInternal` -/
def verifyFreelistInternal (freelists : Freelists) : Bool :=
  freelists.toList.all fun bucket =>
    (bucket.2.sort (· ≤ ·)).all fun off => !isParentBlockFree freelists off bucket.1

/-! ## Allocation -/

variable (cfg : Config)

/-- The size of the block for a request. -/
def requiredSize (requestedSize : Nat) : Nat :=
  let size := (requestedSize + headerSize) % 2 ^ 64
  roundUpPowerOf2 (if size < cfg.minAllocSize then cfg.minAllocSize else size)

/-- `allocateSpace`: the new store, the offset and the allocated size. -/
def allocateSpace (s : Store) (requestedSize : Nat) :
    Except Fault (Store × Nat × Nat) := do
  let s := invalidateFreelistFile s
  let required := requiredSize cfg requestedSize
  let s ← (if required > s.largestFreeChunk then makeMoreSpace s required else .ok s)
  require (required ≤ s.largestFreeChunk) (.assertion "requiredSize <= _largestFreeChunk") do
    let (ret, freelists) ← searchFreelist s.largestFreeChunk 65 required s.freelists
    return (calcLargestFreeChunk { s with freelists := freelists }, ret, required)

/-- `freeChunk` -/
def freeChunk (s : Store) (off allocated : Nat) : Except Fault Store := do
  let s := invalidateFreelistFile s
  if isParentBlockFree s.freelists off allocated then
    return calcLargestFreeChunk s
  else
    let freelists ← addToFreelist 65 allocated off s.freelists
    let s := { s with freelists := freelists }
    -- punching a hole needs the file
    let s := if cfg.punchHoles then checkFileOpen s else s
    let s := { s with frees := s.frees + 1 }
    require (s.frees % 10000 = 0 → verifyFreelistInternal s.freelists = true) .corruptFreelist <|
      return calcLargestFreeChunk s

/-- The constructor: a store on the files that are there. -/
def construct (dataFile : Option Nat) (freelistFile : Option (List UInt8)) :
    Except Fault Store := do
  let allocatedSize := roundUpPowerOf2 (dataFile.getD 0)
  let (allocatedSize, freelists) ←
    if allocatedSize < cfg.minAllocSize then
      let allocatedSize := roundUpPowerOf2 cfg.minAllocSize
      .ok (allocatedSize, add ∅ allocatedSize 0)
    else do
      let freelists ← readFreelistFromFile freelistFile
      .ok (allocatedSize, freelists)
  return calcLargestFreeChunk
    { isFileCreated := dataFile.isSome
      fileOpen := false
      dirty := false
      fldirty := false
      frees := 0
      largestFreeChunk := 0
      allocatedSize := allocatedSize
      freelists := freelists
      dataFile := dataFile
      freelistFile := freelistFile }

end SciDB.DataStore
