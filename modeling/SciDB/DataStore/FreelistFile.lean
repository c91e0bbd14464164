import SciDB.Lib.Buckets
import SciDB.Lib.Bytes
import SciDB.Lib.Checked

/-!
# The free-list file

A data store keeps its free blocks in memory and writes them to a file next to
the data file: the number of buckets, then each bucket with its size, key,
number of elements, offsets and a checksum (`FreelistBucket` and
`persistFreelists` in `src/util/DataStore.cpp`).

Main results:

- Theorem {lit}`readBucket_bucketBytes`: a bucket is read back as it was written.
- Theorem {lit}`readFreelistFromFile_freelistBytes`: the free lists are read back
  as they were written.
-/

namespace SciDB.DataStore

open Buckets Bytes List

/-- `DataStoreFreelists`: power of two to set of offsets. -/
abbrev Freelists := BucketMap

/-- What can go wrong in a data store. -/
inductive Fault
  /-- a failed `SCIDB_ASSERT` or `assert` -/
  | assertion (text : String)
  | divisionByZero
  /-- a loop or recursion of the source that never ends -/
  | endless
  /-- `SCIDB_LE_DATASTORE_CORRUPT_FREELIST` -/
  | corruptFreelist
  /-- a read past the end of a file -/
  | readFailed
deriving DecidableEq, Repr

/-! ## Checksums -/

/-- One entry of the table in `calculateCRC32`, the reflected table of the
polynomial `0xEDB88320`. -/
def crcTable (i : UInt32) : UInt32 :=
  (List.range 8).foldl (fun c _ => if c &&& 1 = 1 then (c >>> 1) ^^^ 0xEDB88320 else c >>> 1) i

/-- `calculateCRC32`, starting from all ones. -/
def calculateCRC32 (content : List UInt8) : UInt32 :=
  content.foldl (fun crc byte => (crc >>> 8) ^^^ crcTable ((crc &&& 0xFF) ^^^ byte.toUInt32))
    0xFFFFFFFF

/-! ## Writing -/

/-- The key, the number of elements and the offsets of a bucket. -/
def bucketBody (key : Nat) (bucket : Finset Nat) : List UInt8 :=
  le 8 key ++ (le 8 bucket.card ++ (bucket.sort (· ≤ ·)).flatMap (le 8))

/-- The first constructor of `FreelistBucket`, followed by `write`. -/
def bucketBytes (key : Nat) (bucket : Finset Nat) : List UInt8 :=
  le 8 (16 + 8 * bucket.card + 4) ++
    (bucketBody key bucket ++ le 4 (calculateCRC32 (bucketBody key bucket)).toNat)

/-- What `persistFreelists` writes. -/
def freelistBytes (freelists : Freelists) : List UInt8 :=
  le 8 freelists.size ++
    (freelists.toList.filter (·.2 ≠ ∅)).flatMap fun bucket => bucketBytes bucket.1 bucket.2

/-! ## Reading -/

/-- `File::readAll` -/
def readAll (file : List UInt8) (len off : Nat) : Except Fault (List UInt8) :=
  if off + len ≤ file.length then .ok (slice file off len) else .error .readFailed

/-- The second constructor of `FreelistBucket`: key, offsets and `size()`. -/
def readBucket (file : List UInt8) (offset : Nat) : Except Fault (Nat × List Nat × Nat) := do
  let bucketsize := ofLe (← readAll file 8 offset)
  let buf ← readAll file bucketsize (offset + 8)
  let key := ofLe (slice buf 0 8)
  let nelements := ofLe (slice buf 8 8)
  -- the source would read past its buffer here
  require (16 + 8 * nelements + 4 ≤ bucketsize) .corruptFreelist do
    let offsets := (List.range nelements).map fun i => ofLe (slice buf (16 + 8 * i) 8)
    let crc := ofLe (slice buf (16 + 8 * nelements) 4)
    require (crc = (calculateCRC32 (slice buf 0 (bucketsize - 4))).toNat) .corruptFreelist <|
      return (key, offsets, bucketsize + 8)

/-- `unload` -/
def unload (freelists : Freelists) (key : Nat) (offsets : List Nat) : Freelists :=
  offsets.foldl (fun fl off => add fl key off) freelists

/-- The loop of `readFreelistFromFile` over the buckets. -/
def readBuckets (file : List UInt8) :
    (nbuckets : Nat) → (fileoff : Nat) → Freelists → Except Fault Freelists
  | 0, _, freelists => .ok freelists
  | nbuckets + 1, fileoff, freelists => do
      let (key, offsets, size) ← readBucket file fileoff
      readBuckets file nbuckets (fileoff + size) (unload freelists key offsets)

/-- `readFreelistFromFile` into empty lists: a missing or empty file and a
corrupt bucket leave them empty. -/
def readFreelistFromFile (file : Option (List UInt8)) : Except Fault Freelists :=
  match file with
  | none => .ok ∅
  | some [] => .ok ∅
  | some file => do
      let nbuckets := ofLe (← readAll file 8 0)
      match readBuckets file nbuckets 8 ∅ with
      | .ok freelists => return freelists
      | .error _ => return ∅

/-! ## Reading what was written -/

theorem readAll_mid {a b c : List UInt8} {off len : Nat} (hoff : a.length = off)
    (hlen : b.length = len) : readAll (a ++ (b ++ c)) len off = .ok b := by
  rw [readAll, if_pos (by simp only [length_append]; omega), slice_mid hoff hlen]

theorem length_flatMap_le (xs : List Nat) : (xs.flatMap (le 8)).length = 8 * xs.length := by
  induction xs with
  | nil => rfl
  | cons x xs ih =>
    rw [flatMap_cons, length_append, length_le, length_cons]
    omega

/-- Reading consecutive 8-byte numbers. -/
theorem map_slice_flatMap (xs : List Nat) (hxs : ∀ x ∈ xs, x < 256 ^ 8) (a c : List UInt8) :
    (List.range xs.length).map
      (fun i => ofLe (slice (a ++ (xs.flatMap (le 8) ++ c)) (a.length + 8 * i) 8)) = xs := by
  induction xs generalizing a with
  | nil => rfl
  | cons x xs ih =>
    have htail := ih (fun y hy => hxs y (mem_cons_of_mem x hy)) (a ++ le 8 x)
    have hhead : slice (a ++ ((x :: xs).flatMap (le 8) ++ c)) (a.length + 8 * 0) 8 = le 8 x := by
      exact slice_mid (by omega) (length_le 8 x)
    rw [length_cons, range_succ_eq_map, map_cons, map_map, hhead,
      ofLe_le_of_lt (hxs x mem_cons_self)]
    refine congrArg (x :: ·) ?_
    refine Eq.trans (map_congr_left ?_) htail
    intro i _
    simp only [Function.comp_apply, flatMap_cons, append_assoc, length_append, length_le]
    rw [show a.length + 8 * (i + 1) = a.length + 8 + 8 * i by omega]

theorem length_bucketBody (key : Nat) (bucket : Finset Nat) :
    (bucketBody key bucket).length = 16 + 8 * bucket.card := by
  simp only [bucketBody, length_append, length_le, length_flatMap_le, Finset.length_sort]
  omega

/-- A bucket is read back as it was written, wherever it stands in the file. -/
theorem readBucket_bucketBytes {key : Nat} {bucket : Finset Nat} (hkey : key < 2 ^ 64)
    (hcard : 16 + 8 * bucket.card + 4 < 2 ^ 64) (hoffsets : ∀ off ∈ bucket, off < 2 ^ 64)
    (a c : List UInt8) :
    readBucket (a ++ (bucketBytes key bucket ++ c)) a.length =
      .ok (key, bucket.sort (· ≤ ·), (bucketBytes key bucket).length) := by
  obtain ⟨body, hbody⟩ : ∃ body, body = bucketBody key bucket := ⟨_, rfl⟩
  obtain ⟨crc, hcrc⟩ : ∃ crc, crc = le 4 (calculateCRC32 body).toNat := ⟨_, rfl⟩
  have hbodyLen : body.length = 16 + 8 * bucket.card := by rw [hbody, length_bucketBody]
  have hcrcLen : crc.length = 4 := by rw [hcrc, length_le]
  have hbytes : bucketBytes key bucket = le 8 (16 + 8 * bucket.card + 4) ++ (body ++ crc) := by
    rw [bucketBytes, ← hbody, ← hcrc]
  have hsize : readAll (a ++ (bucketBytes key bucket ++ c)) 8 a.length =
      .ok (le 8 (16 + 8 * bucket.card + 4)) := by
    exact readAll_mid rfl (length_le 8 _)
  have hbuf : readAll (a ++ (bucketBytes key bucket ++ c)) (16 + 8 * bucket.card + 4)
      (a.length + 8) = .ok (body ++ crc) := by
    rw [hbytes, append_assoc, ← append_assoc]
    refine readAll_mid ?_ ?_
    · rw [length_append, length_le]
    · rw [length_append, hbodyLen, hcrcLen]
  have hkeySlice : slice (body ++ crc) 0 8 = le 8 key := by
    rw [hbody]
    exact slice_mid (a := []) rfl (length_le 8 key)
  have hcardSlice : slice (body ++ crc) 8 8 = le 8 bucket.card := by
    rw [hbody]
    exact slice_mid (length_le 8 key) (length_le 8 _)
  have hoffsetsSlice : (List.range bucket.card).map
      (fun i => ofLe (slice (body ++ crc) (16 + 8 * i) 8)) = bucket.sort (· ≤ ·) := by
    have h := map_slice_flatMap (bucket.sort (· ≤ ·))
      (fun x hx => by have := hoffsets x ((Finset.mem_sort _).mp hx); omega)
      (le 8 key ++ le 8 bucket.card) crc
    rw [Finset.length_sort] at h
    rw [hbody, bucketBody]
    simpa only [append_assoc, length_append, length_le] using h
  have hcrcSlice : slice (body ++ crc) (16 + 8 * bucket.card) 4 = crc := by
    have h := slice_mid (c := []) hbodyLen hcrcLen
    rwa [append_nil] at h
  have hbodySlice : slice (body ++ crc) 0 (16 + 8 * bucket.card + 4 - 4) = body :=
    slice_mid (a := []) rfl hbodyLen
  have hcrcLt : (calculateCRC32 body).toNat < 256 ^ 4 := (calculateCRC32 body).toNat_lt
  simp only [readBucket, hsize, bind, Except.bind, ofLe_le_of_lt (w := 8) hcard]
  simp only [hbuf, hkeySlice, hcardSlice]
  rw [ofLe_le_of_lt (w := 8) hkey, ofLe_le_of_lt (by omega : bucket.card < 256 ^ 8),
    require_pos le_rfl, hbodySlice, hcrcSlice, hoffsetsSlice, hcrc,
    require_pos (ofLe_le_of_lt hcrcLt)]
  rw [hbytes, length_append, length_append, length_le]
  congr 3
  omega

/-- Free lists that the file format can hold. -/
structure Writable (freelists : Freelists) : Prop where
  noEmpty : NoEmpty freelists
  size_lt : freelists.size < 2 ^ 64
  key_lt : ∀ {key : Nat} {bucket : Finset Nat}, freelists[key]? = some bucket → key < 2 ^ 64
  card_lt : ∀ {key : Nat} {bucket : Finset Nat}, freelists[key]? = some bucket →
    16 + 8 * bucket.card + 4 < 2 ^ 64
  off_lt : ∀ {key off : Nat}, Has freelists key off → off < 2 ^ 64

variable {freelists : Freelists}

theorem has_unload {key : Nat} {offsets : List Nat} {k x : Nat} :
    Has (unload freelists key offsets) k x ↔ (k = key ∧ x ∈ offsets) ∨ Has freelists k x := by
  induction offsets generalizing freelists with
  | nil => simp [unload]
  | cons off offsets ih =>
    rw [unload, foldl_cons, ← unload, ih, has_add, mem_cons]
    tauto

theorem noEmpty_unload (h : NoEmpty freelists) (key : Nat) (offsets : List Nat) :
    NoEmpty (unload freelists key offsets) := by
  induction offsets generalizing freelists with
  | nil => exact h
  | cons off offsets ih => exact ih (h.add key off)

/-- Reading a list of buckets adds all their entries. -/
theorem readBuckets_flatMap (buckets : List (Nat × Finset Nat))
    (hwritable : ∀ b ∈ buckets, b.1 < 2 ^ 64 ∧ 16 + 8 * b.2.card + 4 < 2 ^ 64 ∧
      ∀ off ∈ b.2, off < 2 ^ 64)
    (a : List UInt8) (hnoEmpty : NoEmpty freelists) :
    ∃ fl, readBuckets (a ++ buckets.flatMap fun b => bucketBytes b.1 b.2)
        buckets.length a.length freelists = .ok fl ∧ NoEmpty fl ∧
      ∀ k x, Has fl k x ↔ (∃ b ∈ buckets, b.1 = k ∧ x ∈ b.2) ∨ Has freelists k x := by
  induction buckets generalizing a freelists with
  | nil => exact ⟨freelists, rfl, hnoEmpty, by simp⟩
  | cons b buckets ih =>
    rcases hwritable b mem_cons_self with ⟨hkey, hcard, hoff⟩
    have hread := readBucket_bucketBytes hkey hcard hoff a
      (buckets.flatMap fun b => bucketBytes b.1 b.2)
    rcases ih (fun c hc => hwritable c (mem_cons_of_mem b hc)) (a ++ bucketBytes b.1 b.2)
      (noEmpty_unload hnoEmpty b.1 (b.2.sort (· ≤ ·))) with ⟨fl, hfl, hfl', hhas⟩
    refine ⟨fl, ?_, hfl', ?_⟩
    · rw [flatMap_cons, length_cons, readBuckets, hread]
      rw [append_assoc, length_append] at hfl
      exact hfl
    · intro k x
      rw [hhas, has_unload, @eq_comm _ k b.1]
      simp only [Finset.mem_sort, exists_mem_cons_iff]
      exact or_left_comm.trans or_assoc.symm

/-- The free lists are read back as they were written. -/
theorem readFreelistFromFile_freelistBytes (h : Writable freelists) :
    readFreelistFromFile (some (freelistBytes freelists)) = .ok freelists := by
  have hfilter : freelists.toList.filter (·.2 ≠ ∅) = freelists.toList := by
    rw [filter_eq_self]
    intro b hb
    rw [decide_eq_true_eq]
    exact h.noEmpty b.1 b.2 (Std.ExtTreeMap.mem_toList_iff_getElem?_eq_some.mp hb)
  have hwritable : ∀ b ∈ freelists.toList, b.1 < 2 ^ 64 ∧ 16 + 8 * b.2.card + 4 < 2 ^ 64 ∧
      ∀ off ∈ b.2, off < 2 ^ 64 := by
    intro b hb
    have hget := Std.ExtTreeMap.mem_toList_iff_getElem?_eq_some.mp hb
    exact ⟨h.key_lt hget, h.card_lt hget, fun off hoff => h.off_lt ⟨b.2, hget, hoff⟩⟩
  have hempty : NoEmpty (∅ : Freelists) := by
    intro k b hb
    simp at hb
  rcases readBuckets_flatMap freelists.toList hwritable (le 8 freelists.size) hempty with
    ⟨fl, hread, hnoEmpty, hhas⟩
  have heq : fl = freelists := by
    apply ext_has hnoEmpty h.noEmpty
    intro k x
    rw [hhas]
    constructor
    · rintro (⟨b, hb, rfl, hx⟩ | ⟨b, hb, _⟩)
      · exact ⟨b.2, Std.ExtTreeMap.mem_toList_iff_getElem?_eq_some.mp hb, hx⟩
      · simp at hb
    · rintro ⟨b, hb, hx⟩
      exact .inl ⟨(k, b), Std.ExtTreeMap.mem_toList_iff_getElem?_eq_some.mpr hb, rfl, hx⟩
  have hbytes : freelistBytes freelists = le 8 freelists.size ++
      freelists.toList.flatMap fun b => bucketBytes b.1 b.2 := by
    rw [freelistBytes, hfilter]
  have hcount : readAll (freelistBytes freelists) 8 0 = .ok (le 8 freelists.size) := by
    exact readAll_mid (a := []) rfl (length_le 8 _)
  rw [Std.ExtTreeMap.length_toList, length_le, ← hbytes, heq] at hread
  have hdef : readFreelistFromFile (some (freelistBytes freelists)) = (do
      let nbuckets := ofLe (← readAll (freelistBytes freelists) 8 0)
      match readBuckets (freelistBytes freelists) nbuckets 8 ∅ with
      | .ok freelists => return freelists
      | .error _ => return ∅) := by
    rfl
  rw [hdef, hcount]
  simp only [bind, Except.bind, ofLe_le_of_lt (w := 8) h.size_lt, hread]
  rfl

end SciDB.DataStore
