import SciDB.Index.Maps

/-!
# Versions of an array in the chunk index

The index of a stored array has an entry for each chunk and version in which the
chunk changed; a chunk of version `v` is the newest entry not above `v`, and an
entry with a null handle is a tombstone.  `DBArray::removeVersions`
(`src/array/DBArray.cpp`) deletes, in one pass over the index, the entries that no
version from a given one on can see.

Main results:

- Theorem {lit}`removeVersions_eq`: exactly the entries that a newer one hides from
  the oldest live version are deleted.
- Theorem {lit}`removeVersions_invisible`: live versions do not notice.
- Theorem {lit}`rollbackVersion_undoes`: a rollback leaves no trace of a version.
-/

namespace SciDB.Index

open OrderedMap KeyMeta List OrdMap RocksIndexMap
open RocksIndexMap (content mem_content Closed Points)
open RocksIndexMap (begin find isEnd)
open DbKey (address lt_iff)

/-! ## Attributes and addresses -/

/-- `EBM_ATTRIBUTE_ID`, the attribute id of the empty bitmap on disk. -/
def EBM_ATTRIBUTE_ID : Nat := 0x7FFFFFFE

/-- `AttributeDesc` -/
structure AttributeDesc where
  id : Nat
  isEmptyIndicator : Bool
deriving DecidableEq, Repr

/-- The attributes of an array: they have different ids, and at most one is the
empty bitmap. -/
structure Attributes where
  attrs : List AttributeDesc
  id_lt : ∀ a ∈ attrs, a.id < EBM_ATTRIBUTE_ID
  eq_of_id : ∀ a ∈ attrs, ∀ b ∈ attrs, a.id = b.id → a = b
  eq_of_ebm : ∀ a ∈ attrs, ∀ b ∈ attrs, a.isEmptyIndicator → b.isEmptyIndicator → a = b

/-- What can go wrong in a disk index. -/
inductive IndexFault
  | map (fault : MapFault)
  /-- `SCIDB_ASSERT(ebm)` in `_decodeAttributeID` -/
  | noEmptyBitmap
  | keyNotExist
deriving DecidableEq, Repr

/-- `getEmptyBitmapAttribute` -/
def Attributes.getEmptyBitmapAttribute (as : Attributes) : Option AttributeDesc :=
  as.attrs.find? AttributeDesc.isEmptyIndicator

/-- `_encodeAttributeID`; `renumber` is `supportingEncodedEBM()`. -/
def encodeAttributeID (renumber : Bool) (attr : AttributeDesc) : Nat :=
  if renumber && attr.isEmptyIndicator then EBM_ATTRIBUTE_ID else attr.id

/-- `_decodeAttributeID` -/
def decodeAttributeID (attrId : Nat) (ebm : Option AttributeDesc) : Except IndexFault Nat :=
  if attrId = EBM_ATTRIBUTE_ID then
    match ebm with
    | some a => .ok a.id
    | none => .error .noEmptyBitmap
  else .ok attrId

/-- `PersistentAddress` -/
structure PersistentAddress where
  attId : Nat := 0
  coords : List Int := []
  arrVerId : Nat := 0
deriving DecidableEq, Repr

/-- `sameBaseAddr` -/
def PersistentAddress.sameBaseAddr (a b : PersistentAddress) : Bool :=
  if a.attId ≠ b.attId then false else a.coords = b.coords

/-- `DbAddressMeta::fillKey`; an array has at least one dimension. -/
def fillKey (renumber : Bool) (d : DataStoreKey) (attr : AttributeDesc) (coords : List Int)
    (h : coords ≠ []) (arrVerId : Nat) : DbKey :=
  ⟨d, encodeAttributeID renumber attr, arrVerId, coords, fun hnil => (h hnil).elim⟩

/-- `DbAddressMeta::keyToAddress` -/
def keyToAddress (k : DbKey) (ebm : Option AttributeDesc) : Except IndexFault
    PersistentAddress := do
  let attId ← decodeAttributeID k.attId ebm
  .ok ⟨attId, k.coords, k.arrVerId⟩

/-- The keys of the index were filled for attributes of the array. -/
def StoredBy (as : Attributes) (renumber : Bool) (index : OrdMap DbKey Entry) : Prop :=
  ∀ e ∈ index.entries, ∃ a ∈ as.attrs, e.1.attId = encodeAttributeID renumber a

section

variable {as : Attributes} {renumber : Bool} {a : AttributeDesc}

theorem decode_encode (ha : a ∈ as.attrs) :
    decodeAttributeID (encodeAttributeID renumber a) as.getEmptyBitmapAttribute = .ok a.id := by
  unfold encodeAttributeID decodeAttributeID
  by_cases henc : (renumber && a.isEmptyIndicator) = true
  · rw [if_pos henc, if_pos rfl]
    rw [Bool.and_eq_true] at henc
    cases hf : as.getEmptyBitmapAttribute with
    | none =>
      rw [Attributes.getEmptyBitmapAttribute, find?_eq_none] at hf
      exact (hf a ha henc.2).elim
    | some b =>
      have hb := mem_of_find?_eq_some hf
      have hbe := find?_some hf
      rw [as.eq_of_ebm a ha b hb henc.2 hbe]
  · rw [if_neg henc, if_neg (as.id_lt a ha).ne]

/-- Different attributes have different ids on disk. -/
theorem encode_injective {b : AttributeDesc} (ha : a ∈ as.attrs) (hb : b ∈ as.attrs)
    (h : encodeAttributeID renumber a = encodeAttributeID renumber b) : a = b := by
  have hid : (Except.ok a.id : Except IndexFault Nat) = .ok b.id := by
    rw [← decode_encode ha, h, decode_encode hb]
  exact as.eq_of_id a ha b hb (Except.ok.inj hid)

end

/-- Two keys of one index name the same chunk. -/
def SameChunk (k k' : DbKey) : Prop :=
  k.attId = k'.attId ∧ k.coords = k'.coords

instance (k k' : DbKey) : Decidable (SameChunk k k') :=
  inferInstanceAs (Decidable (_ ∧ _))

variable {k k' : DbKey} {lastLive : Nat} {e : DbKey × Entry} {k'' : DbKey}

theorem SameChunk.trans (h : SameChunk k k') (h' : SameChunk k' k'') : SameChunk k k'' :=
  ⟨h.1.trans h'.1, h.2.trans h'.2⟩

theorem SameChunk.symm (h : SameChunk k k') : SameChunk k' k :=
  ⟨h.1.symm, h.2.symm⟩

theorem sameChunk_iff (h : k.dsk = k'.dsk) : SameChunk k k' ↔ k.address = k'.address := by
  rw [address, address, addressOrder_inj, SameChunk]
  simp [h]

/-- Of two entries of one chunk, the newer one comes first. -/
theorem SameChunk.version_lt (h : SameChunk k k') (hd : k.dsk = k'.dsk) (hlt : k < k') :
    k'.arrVerId < k.arrVerId := by
  rcases lt_iff.mp hlt with ha | ha
  · exact (ha.ne ((sameChunk_iff hd).mp h)).elim
  · exact ha.2

theorem SameChunk.version_le (h : SameChunk k k') (hd : k.dsk = k'.dsk) (hle : k ≤ k') :
    k'.arrVerId ≤ k.arrVerId := by
  rcases hle.lt_or_eq with hlt | rfl
  · exact (h.version_lt hd hlt).le
  · exact le_rfl

/-- Keys of one index with the same number of dimensions are ordered by attribute and
coordinates first. -/
theorem attId_coords_le (h : k ≤ k') (hd : k.dsk = k'.dsk)
    (hn : k.coords.length = k'.coords.length) :
    k.attId < k'.attId ∨ k.attId = k'.attId ∧ k.coords ≤ k'.coords := by
  rcases h.lt_or_eq with h | rfl
  swap
  · exact .inr ⟨rfl, le_rfl⟩
  rcases lt_iff.mp h with ha | ha
  · rw [address, address, addressOrder, addressOrder, hd, hn] at ha
    simp only [Prod.Lex.toLex_lt_toLex, lt_irrefl, false_or, true_and] at ha
    exact ha.imp_right fun h => ⟨h.1, h.2.le⟩
  · have hsame := (sameChunk_iff hd).mpr ha.1
    exact .inr ⟨hsame.1, hsame.2.le⟩

theorem le_of_coords (hd : k.dsk = k'.dsk) (hn : k.coords.length = k'.coords.length)
    (ha : k.attId = k'.attId)
    (h : k.coords < k'.coords ∨ k.coords = k'.coords ∧ k'.arrVerId ≤ k.arrVerId) : k ≤ k' := by
  rcases h with h | ⟨hco, hv⟩
  · refine (lt_iff.mpr (.inl ?_)).le
    rw [address, address, addressOrder, addressOrder, hd, hn, ha]
    simp only [Prod.Lex.toLex_lt_toLex, true_and, lt_irrefl, false_or]
    exact h
  · rcases hv.lt_or_eq with hlt | heq
    · refine (lt_iff.mpr (.inr ⟨?_, hlt⟩)).le
      exact (sameChunk_iff hd).mp ⟨ha, hco⟩
    · exact (DbKey.ext hd ha heq.symm hco).le

/-- The entries of one chunk are next to each other. -/
theorem SameChunk.between (h : SameChunk k k'') (hd : k.dsk = k'.dsk) (hd' : k'.dsk = k''.dsk)
    (hle : k ≤ k') (hle' : k' ≤ k'') : SameChunk k k' := by
  have hmono : ∀ {x y : DbKey}, x ≤ y → x.address ≤ y.address := fun hxy => by
    rcases hxy.lt_or_eq with hlt | rfl
    · exact (lt_iff.mp hlt).elim le_of_lt fun h => h.1.le
    · exact le_rfl
  have heq := (sameChunk_iff (hd.trans hd')).mp h
  exact (sameChunk_iff hd).mpr (le_antisymm (hmono hle) (heq ▸ hmono hle'))

/-- The address of a key whose attribute id can be decoded. -/
def decodedAddress (ebm : Option AttributeDesc) (k : DbKey) : PersistentAddress :=
  ⟨(decodeAttributeID k.attId ebm).toOption.getD 0, k.coords, k.arrVerId⟩

section

variable {as : Attributes} {renumber : Bool} {index : OrdMap DbKey Entry} {e e' : DbKey × Entry}

variable (hs : StoredBy as renumber index)

include hs

theorem StoredBy.keyToAddress_eq (he : e ∈ index.entries) :
    keyToAddress e.1 as.getEmptyBitmapAttribute =
      .ok (decodedAddress as.getEmptyBitmapAttribute e.1) := by
  rcases hs e he with ⟨a, ha, hid⟩
  simp [keyToAddress, decodedAddress, hid, decode_encode ha, bind, Except.bind, Except.toOption]

theorem StoredBy.attId_eq_iff (he : e ∈ index.entries) {a : AttributeDesc} (ha : a ∈ as.attrs) :
    (decodedAddress as.getEmptyBitmapAttribute e.1).attId = a.id ↔
      e.1.attId = encodeAttributeID renumber a := by
  rcases hs e he with ⟨b, hb, hid⟩
  simp only [decodedAddress, hid, decode_encode hb, Except.toOption, Option.getD_some]
  constructor
  · intro h
    rw [as.eq_of_id b hb a ha h]
  · intro h
    rw [encode_injective hb ha h]

/-- Stored keys decode to the same attribute if they have the same attribute id. -/
theorem StoredBy.attId_inj (he : e ∈ index.entries) (he' : e' ∈ index.entries) :
    (decodedAddress as.getEmptyBitmapAttribute e.1).attId =
      (decodedAddress as.getEmptyBitmapAttribute e'.1).attId ↔ e.1.attId = e'.1.attId := by
  rcases hs e' he' with ⟨a, ha, hid⟩
  rw [(hs.attId_eq_iff he' ha).mpr hid, hs.attId_eq_iff he ha, hid]

end

/-! ## What a version sees -/

/-- The entry that version `v` sees for a chunk: the newest one not above `v`. -/
structure IsNewest (entries : List (DbKey × Entry)) (attId : Nat) (coords : List Int) (v : Nat)
    (e : DbKey × Entry) : Prop where
  mem : e ∈ entries
  attId_eq : e.1.attId = attId
  coords_eq : e.1.coords = coords
  le : e.1.arrVerId ≤ v
  newest : ∀ e' ∈ entries, e'.1.attId = attId → e'.1.coords = coords → e'.1.arrVerId ≤ v →
    e'.1.arrVerId ≤ e.1.arrVerId

/-- What a version sees of a chunk is the first entry from its key on, if that is one of
the chunk. -/
theorem isNewest_iff {store : OrdMap DbKey Entry} {k : DbKey} {e : DbKey × Entry} :
    IsNewest (content store k.dsk).entries k.attId k.coords k.arrVerId e ↔
      ((content store k.dsk).seek k).head? = some e ∧ SameChunk e.1 k := by
  have hdsk : ∀ x ∈ (content store k.dsk).entries, x.1.dsk = k.dsk := fun x hx =>
    (mem_content.mp hx).2.1
  have hfrom : ∀ x ∈ (content store k.dsk).entries, SameChunk x.1 k → x.1.arrVerId ≤ k.arrVerId →
      k ≤ x.1 := fun x hx hsame hv =>
    le_of_coords (hdsk x hx).symm (congrArg List.length hsame.2.symm) hsame.1.symm
      (.inr ⟨hsame.2.symm, hv⟩)
  rw [head?_seek]
  constructor
  · intro h
    have hsame : SameChunk e.1 k := ⟨h.attId_eq, h.coords_eq⟩
    refine ⟨⟨⟨h.mem, hfrom e h.mem hsame h.le⟩, ?_⟩, hsame⟩
    intro x hx hkx
    by_contra hlt
    -- the entry before would be of the chunk, and newer
    have hd := (hdsk x hx).trans (hdsk e h.mem).symm
    have hxsame : SameChunk k x.1 :=
      hsame.symm.between (hdsk x hx).symm hd hkx (not_le.mp hlt).le
    have hnew := (hxsame.symm.trans hsame.symm).version_lt hd (not_le.mp hlt)
    exact hnew.not_ge (h.newest x hx hxsame.1.symm hxsame.2.symm
      (hxsame.version_le (hdsk x hx).symm hkx))
  · rintro ⟨⟨⟨he, hke⟩, hleast⟩, hsame⟩
    refine ⟨he, hsame.1, hsame.2, hsame.symm.version_le (hdsk e he).symm hke, ?_⟩
    intro x hx hatt hco hv
    exact (hsame.trans ⟨hatt.symm, hco.symm⟩).version_le ((hdsk e he).trans (hdsk x hx).symm)
      (hleast x hx (hfrom x hx ⟨hatt, hco⟩ hv))

/-- A newer entry hides the entry from version `v`. -/
def Hidden (entries : List (DbKey × Entry)) (v : Nat) (k : DbKey) : Prop :=
  ∃ e ∈ entries, SameChunk e.1 k ∧ k.arrVerId < e.1.arrVerId ∧ e.1.arrVerId ≤ v

instance (entries : List (DbKey × Entry)) (v : Nat) (k : DbKey) : Decidable (Hidden entries v k) :=
  inferInstanceAs (Decidable (∃ e ∈ entries, _))

/-! ## removeVersions -/

/-- The two variables the loop carries along. -/
structure Liveness where
  currentChunkAddr : PersistentAddress := { }
  currentChunkIsLive : Bool := true

/-- The body of the loop up to the deletion, which it reaches if the second
component is true. -/
def Liveness.judge (lastLiveArrId : Nat) (s : Liveness) (targetAddress : PersistentAddress) :
    Liveness × Bool :=
  if lastLiveArrId ≠ 0 then
    let s := if !targetAddress.sameBaseAddr s.currentChunkAddr then ⟨targetAddress, true⟩ else s
    if targetAddress.arrVerId > lastLiveArrId then (s, false)
    else if targetAddress.arrVerId = lastLiveArrId then
      ({ s with currentChunkIsLive := false }, false)
    else if s.currentChunkIsLive then ({ s with currentChunkIsLive := false }, false)
    else (s, true)
  else (s, true)

/-- `DiskIndex::deleteRecord`; what becomes of the buffer is not told here. -/
def deleteRecord (db : RocksDb DbKey) (d : DataStoreKey) (k : DbKey) :
    Except IndexFault (RocksDb DbKey) := do
  let it ← (find db d k).mapError .map
  if ← (isEnd d it).mapError .map then .error .keyNotExist
  else (RocksIndexMap.erase db it).mapError .map

/-- The loop of `removeVersions`; the iterator reads the snapshot it was made on. -/
def removeLoop (as : Attributes) (d : DataStoreKey) (lastLiveArrId : Nat) :
    RocksIterator DbKey → Liveness → RocksDb DbKey → Except IndexFault (RocksDb DbKey)
  | [], _, _ => .error (.map .notValid)
  | e :: it, s, db =>
    if e.1 < keyMax d then do
      let targetAddress ← keyToAddress e.1 as.getEmptyBitmapAttribute
      let (s, remove) := s.judge lastLiveArrId targetAddress
      let db ← (if remove then deleteRecord db d e.1 else .ok db)
      removeLoop as d lastLiveArrId it s db
    else .ok db

/-- `DBArray::removeVersions`, with `_deleteDataOnDestroy` of the index: it is set
if no version is live. -/
def removeVersions (as : Attributes) (db : RocksDb DbKey) (d : DataStoreKey) (lastLiveArrId : Nat) :
    Except IndexFault (RocksDb DbKey × Bool) := do
  let current ← (begin db d).mapError .map
  let db ← removeLoop as d lastLiveArrId current { } db
  .ok (db, lastLiveArrId = 0)

variable {db : RocksDb DbKey} {d : DataStoreKey} {k : DbKey} {store : OrdMap DbKey Entry}
  {attId v : Nat} {coords : List Int} {entries : List (DbKey × Entry)} {as : Attributes}

theorem deleteRecord_eq (hc : Closed db.store d) (hk : k.dsk = d)
    (hne : k ≠ keyMax d) {x : Entry} (hx : db.store.get k = some x) :
    deleteRecord db d k = .ok { db with store := db.store.erase k } := by
  rcases find_stored hc hk hne hx with ⟨it, hit, hlt⟩
  simp [deleteRecord, hit, Except.mapError, bind, Except.bind, isEnd, hlt, RocksIndexMap.erase]

/-- What the loop knows about the records behind `before`: whether an entry of the
same chunk that the oldest live version can see was passed. -/
def Liveness.Knows (lastLive : Nat) (att : DbKey → Nat) (before rest : List (DbKey × Entry))
    (s : Liveness) : Prop :=
  ∀ t ∈ rest,
    (att t.1 = s.currentChunkAddr.attId ∧ t.1.coords = s.currentChunkAddr.coords ∧
      s.currentChunkIsLive = false) ↔
    ∃ e ∈ before, SameChunk e.1 t.1 ∧ e.1.arrVerId ≤ lastLive

/-- The chunk of the address was seen, and its flag is down. -/
def Liveness.down (s : Liveness) (t : PersistentAddress) : Bool :=
  t.sameBaseAddr s.currentChunkAddr && !s.currentChunkIsLive

/-- What one turn of the loop does with a record. -/
theorem Liveness.judge_eq (hlive : lastLive ≠ 0) (s : Liveness) (t : PersistentAddress) :
    ∃ addr live, addr.attId = t.attId ∧ addr.coords = t.coords ∧
      (live = false ↔ s.down t ∨ t.arrVerId ≤ lastLive) ∧
      s.judge lastLive t = (⟨addr, live⟩, s.down t && decide (t.arrVerId < lastLive)) := by
  rcases s with ⟨addr, live⟩
  have haddr : t.sameBaseAddr addr = true → addr.attId = t.attId ∧ addr.coords = t.coords := by
    intro h
    rw [PersistentAddress.sameBaseAddr] at h
    split at h
    · cases h
    · rename_i hatt
      exact ⟨(not_not.mp hatt).symm, (decide_eq_true_iff.mp h).symm⟩
  rw [judge, if_pos hlive, down]
  -- a new chunk starts with its flag up, a chunk that goes on keeps it
  cases hsame : t.sameBaseAddr addr with
  | false =>
    refine ⟨t, decide (lastLive < t.arrVerId), rfl, rfl, by simp, ?_⟩
    rcases lt_trichotomy lastLive t.arrVerId with h | h | h
    · simp [h]
    · simp [h]
    · simp [h.not_gt]
  | true =>
    refine ⟨addr, live && decide (lastLive < t.arrVerId), (haddr hsame).1, (haddr hsame).2, ?_, ?_⟩
    · cases live <;> simp
    · rcases lt_trichotomy lastLive t.arrVerId with h | h | h
      · simp [h, h.not_gt]
      · simp [h]
      · cases live <;> simp [h, h.not_gt, h.ne]

section

variable {lastLive : Nat} {att : DbKey → Nat} {before rest : List (DbKey × Entry)}
  {t : DbKey × Entry} {s : Liveness}

/-- A turn of the loop deletes a record if a newer one of the chunk was passed that
the oldest live version can see, and still knows what was passed. -/
theorem Liveness.Knows.judge (hlive : lastLive ≠ 0) (h : s.Knows lastLive att before (t :: rest))
    (hsorted : Sorted (before ++ t :: rest))
    (hdsk : ∀ e ∈ before ++ t :: rest, e.1.dsk = d)
    (hatt : ∀ e ∈ before ++ t :: rest, ∀ e' ∈ before ++ t :: rest,
      att e.1 = att e'.1 ↔ e.1.attId = e'.1.attId) :
    ∃ s', s.judge lastLive ⟨att t.1, t.1.coords, t.1.arrVerId⟩ =
        (s', decide (Hidden (before ++ t :: rest) lastLive t.1)) ∧
      s'.Knows lastLive att (before ++ [t]) rest := by
  rcases s.judge_eq hlive ⟨att t.1, t.1.coords, t.1.arrVerId⟩ with
    ⟨addr, live, haid, hacoords, hnew, hjudge⟩
  have ht := h t mem_cons_self
  rw [Sorted, pairwise_append] at hsorted
  have htmem : t ∈ before ++ t :: rest := by simp
  have hbefore : ∀ e ∈ before, e.1 < t.1 := fun e he => hsorted.2.2 e he t mem_cons_self
  have hbehind : ∀ t' ∈ rest, t.1 < t'.1 := (pairwise_cons.mp hsorted.2.1).1
  have hdskt : ∀ e ∈ before ++ t :: rest, e.1.dsk = t.1.dsk := fun e he =>
    (hdsk e he).trans (hdsk t htmem).symm
  -- the flag is down for this chunk iff a visible entry of it was passed
  have hdown : s.down ⟨att t.1, t.1.coords, t.1.arrVerId⟩ = true ↔
      ∃ e ∈ before, SameChunk e.1 t.1 ∧ e.1.arrVerId ≤ lastLive := by
    rw [← ht, down, PersistentAddress.sameBaseAddr]
    by_cases ha : att t.1 = s.currentChunkAddr.attId
    · simp [ha]
    · simp [ha]
  have hhidden : Hidden (before ++ t :: rest) lastLive t.1 ↔
      ∃ e ∈ before, SameChunk e.1 t.1 ∧ e.1.arrVerId ≤ lastLive := by
    constructor
    · rintro ⟨e, he, hsame, hlt, hle⟩
      rcases mem_append.mp he with he | he
      · exact ⟨e, he, hsame, hle⟩
      · rcases mem_cons.mp he with rfl | he'
        · exact (lt_irrefl _ hlt).elim
        · have hv := hsame.symm.version_lt (hdskt e (mem_append_right _ he)).symm (hbehind e he')
          exact (hv.not_gt hlt).elim
    · rintro ⟨e, he, hsame, hle⟩
      exact ⟨e, mem_append_left _ he, hsame,
        hsame.version_lt (hdskt e (mem_append_left _ he)) (hbefore e he), hle⟩
  refine ⟨⟨addr, live⟩, ?_, ?_⟩
  · rw [hjudge]
    congr 1
    rw [Bool.eq_iff_iff, Bool.and_eq_true, hdown, ← hhidden, decide_eq_true_iff,
      decide_eq_true_iff, and_iff_left_iff_imp]
    rintro ⟨e, -, -, hlt, hle⟩
    exact hlt.trans_le hle
  · intro t' ht'
    have ht'mem : t' ∈ before ++ t :: rest := by simp [ht']
    have hchunk : att t'.1 = addr.attId ∧ t'.1.coords = addr.coords ↔ SameChunk t.1 t'.1 := by
      rw [haid, hacoords, hatt t' ht'mem t htmem, SameChunk, eq_comm, eq_comm (a := t'.1.coords)]
    rw [← and_assoc, hchunk, hnew, hdown]
    constructor
    · rintro ⟨hsame, ⟨e, he, hsame', hle⟩ | hle⟩
      · exact ⟨e, mem_append_left _ he, hsame'.trans hsame, hle⟩
      · exact ⟨t, by simp, hsame, hle⟩
    · rintro ⟨e, he, hsame, hle⟩
      rcases mem_append.mp he with he | he
      · have hmid := hsame.between (hdskt e (mem_append_left _ he)) (hdskt t' ht'mem).symm
          (hbefore e he).le (hbehind t' ht').le
        exact ⟨hmid.symm.trans hsame, .inl ⟨e, he, hmid, hle⟩⟩
      · rw [mem_singleton.mp he] at hsame hle
        exact ⟨hsame, .inr hle⟩

/-- The records of an index as the loop reads them: in order, with keys of the index
that have an address. -/
structure Readable (as : Attributes) (d : DataStoreKey) (att : DbKey → Nat)
    (records : List (DbKey × Entry)) : Prop where
  sorted : Sorted records
  dsk : ∀ e ∈ records, e.1.dsk = d
  ne_keyMax : ∀ e ∈ records, e.1 ≠ keyMax d
  address : ∀ e ∈ records, keyToAddress e.1 as.getEmptyBitmapAttribute =
    .ok ⟨att e.1, e.1.coords, e.1.arrVerId⟩
  att_iff : ∀ e ∈ records, ∀ e' ∈ records, att e.1 = att e'.1 ↔ e.1.attId = e'.1.attId

/-- The record is deleted: no version is live, or the oldest live one cannot see it. -/
def Dead (records : List (DbKey × Entry)) (lastLive : Nat) (k : DbKey) : Prop :=
  lastLive = 0 ∨ Hidden records lastLive k

instance (records : List (DbKey × Entry)) (lastLive : Nat) (k : DbKey) :
    Decidable (Dead records lastLive k) :=
  inferInstanceAs (Decidable (_ ∨ _))

/-- The loop deletes the dead records it has before it. -/
theorem removeLoop_eq {records : List (DbKey × Entry)}
    (hr : Readable as d att records) {it : RocksIterator DbKey}
    (hrecords : before ++ rest = records)
    (hknows : lastLive ≠ 0 → s.Knows lastLive att before rest)
    (hp : Points d it rest) (hc : Closed db.store d)
    (hget : ∀ e ∈ rest, db.store.get e.1 = some e.2) :
    removeLoop as d lastLive it s db = .ok
      { db with store := db.store.filter fun k =>
          decide (¬(k ∈ rest.map Prod.fst ∧ Dead records lastLive k)) } := by
  induction rest generalizing before it s db with
  | nil =>
    rcases hp.behind with ⟨e, it', rfl, he⟩
    rw [removeLoop, if_neg he]
    rw [OrdMap.filter_eq_self]
    simp
  | cons t rest ih =>
    rcases hp.uncons with ⟨it', rfl, hlt, hp'⟩
    have htmem : t ∈ records := by simp [← hrecords]
    have hsplit : (before ++ [t]) ++ rest = records := by simpa using hrecords
    -- the turn of the loop, for live versions and without one
    have hturn : ∃ s', s.judge lastLive ⟨att t.1, t.1.coords, t.1.arrVerId⟩ =
        (s', decide (Dead records lastLive t.1)) ∧
        (lastLive ≠ 0 → s'.Knows lastLive att (before ++ [t]) rest) := by
      by_cases hlive : lastLive = 0
      · refine ⟨s, ?_, fun h => (h hlive).elim⟩
        simp [Liveness.judge, hlive, Dead]
      · rcases (hknows hlive).judge hlive (hrecords ▸ hr.sorted)
          (fun e he => hr.dsk e (hrecords ▸ he))
          (fun e he e' he' => hr.att_iff e (hrecords ▸ he) e' (hrecords ▸ he')) with
          ⟨s', hjudge, hs'⟩
        refine ⟨s', ?_, fun _ => hs'⟩
        rw [hjudge, hrecords]
        simp [Dead, hlive]
    rcases hturn with ⟨s', hjudge, hs'⟩
    have hbehind : ∀ e ∈ rest, e.1 ≠ t.1 := by
      have hsorted := hrecords ▸ hr.sorted
      rw [Sorted, pairwise_append] at hsorted
      exact fun e he => ((pairwise_cons.mp hsorted.2.1).1 e he).ne'
    rw [removeLoop, if_pos hlt, hr.address t htmem]
    simp only [bind, Except.bind, hjudge, decide_eq_true_eq]
    by_cases hdead : Dead records lastLive t.1
    · rw [if_pos hdead, deleteRecord_eq hc (hr.dsk t htmem) (hr.ne_keyMax t htmem)
        (hget t mem_cons_self)]
      simp only
      rw [ih hsplit hs' hp' (hc.erase hlt)]
      · congr 2
        apply OrdMap.ext_get
        intro k
        rw [get_filter, get_erase, get_filter]
        by_cases hk : k = t.1
        · simp [hk, hdead]
        · simp only [hk, if_false, map_cons, mem_cons, false_or]
      · intro e he
        rw [get_erase, if_neg (hbehind e he)]
        exact hget e (mem_cons_of_mem t he)
    · rw [if_neg hdead]
      simp only
      rw [ih hsplit hs' hp' hc fun e he => hget e (mem_cons_of_mem t he)]
      congr 2
      apply OrdMap.ext_get
      intro k
      rw [get_filter, get_filter]
      by_cases hk : k = t.1
      · simp [hk, hdead]
      · simp only [hk, map_cons, mem_cons, false_or]

end

/-- The store without the dead records of an index. -/
def purge (store : OrdMap DbKey Entry) (d : DataStoreKey) (lastLive : Nat) : OrdMap DbKey Entry :=
  let records := (content store d).entries
  store.filter fun k => decide (¬(k ∈ records.map Prod.fst ∧ Dead records lastLive k))

/-- Exactly the dead records are deleted. -/
theorem removeVersions_eq {renumber : Bool} (hd : d ≠ DataStoreKey.zero)
    (hc : Closed db.store d)
    (hs : StoredBy as renumber (content db.store d)) (lastLive : Nat) :
    removeVersions as db d lastLive =
      .ok ({ db with store := purge db.store d lastLive }, decide (lastLive = 0)) := by
  rcases begin_points hd hc with ⟨it, hit, hp⟩
  have hr : Readable as d (fun k => (decodedAddress as.getEmptyBitmapAttribute k).attId)
      (content db.store d).entries :=
    ⟨(content db.store d).sorted, fun e he => (mem_content.mp he).2.1,
      fun e he => (mem_content.mp he).2.2,
      fun e he => hs.keyToAddress_eq he, fun e he e' he' => hs.attId_inj he he'⟩
  have hget : ∀ e ∈ (content db.store d).entries, db.store.get e.1 = some e.2 :=
    fun e he => mem_entries.mp (mem_content.mp he).1
  have hknows : lastLive ≠ 0 → ({ } : Liveness).Knows lastLive
      (fun k => (decodedAddress as.getEmptyBitmapAttribute k).attId) []
      (content db.store d).entries := fun _ t _ => by simp
  have hloop := removeLoop_eq hr (nil_append _) hknows hp hc hget
  simp [removeVersions, hit, Except.mapError, bind, Except.bind, hloop, purge]

/-- The records that are left are those that are not dead. -/
theorem mem_content_purge :
    e ∈ (content (purge store d lastLive) d).entries ↔
      e ∈ (content store d).entries ∧ ¬Dead (content store d).entries lastLive e.1 := by
  rw [mem_content, purge, OrdMap.filter, mem_filter, decide_eq_true_iff]
  constructor
  · rintro ⟨⟨he, hdead⟩, hk⟩
    have hmem := mem_content.mpr ⟨he, hk⟩
    exact ⟨hmem, fun h => hdead ⟨mem_map_of_mem hmem, h⟩⟩
  · rintro ⟨hmem, hdead⟩
    have he := mem_content.mp hmem
    exact ⟨⟨he.1, fun h => hdead h.2⟩, he.2⟩

/-- Nothing of another index is touched. -/
theorem purge_get_of_ne (hk : k.dsk ≠ d) : (purge store d lastLive).get k = store.get k := by
  rw [purge, get_filter, if_pos]
  rw [decide_eq_true_iff]
  rintro ⟨hmem, -⟩
  rcases mem_map.mp hmem with ⟨e, he, rfl⟩
  exact hk (mem_content.mp he).2.1

/-- If a version sees some entry of a chunk, it sees a newest one. -/
theorem exists_isNewest (he : e ∈ entries) (ha : e.1.attId = attId) (hco : e.1.coords = coords)
    (hv : e.1.arrVerId ≤ v) :
    ∃ e', IsNewest entries attId coords v e' ∧ e.1.arrVerId ≤ e'.1.arrVerId := by
  let visible := entries.filter fun e =>
    decide (e.1.attId = attId ∧ e.1.coords = coords ∧ e.1.arrVerId ≤ v)
  have hmem : ∀ x, x ∈ visible ↔
      x ∈ entries ∧ x.1.attId = attId ∧ x.1.coords = coords ∧ x.1.arrVerId ≤ v := by
    intro x
    rw [mem_filter, decide_eq_true_iff]
  have hne : visible ≠ [] := ne_nil_of_mem ((hmem e).mpr ⟨he, ha, hco, hv⟩)
  cases hmax : visible.argmax fun x => x.1.arrVerId with
  | none => exact (hne (argmax_eq_none.mp hmax)).elim
  | some x =>
    have hx := (hmem x).mp (argmax_mem hmax)
    have hle : ∀ y ∈ visible, y.1.arrVerId ≤ x.1.arrVerId := fun y hy =>
      le_of_mem_argmax (f := fun y : DbKey × Entry => y.1.arrVerId) hy hmax
    refine ⟨x, ⟨hx.1, hx.2.1, hx.2.2.1, hx.2.2.2, ?_⟩, hle e ((hmem e).mpr ⟨he, ha, hco, hv⟩)⟩
    intro e' he' ha' hco' hv'
    exact hle e' ((hmem e').mpr ⟨he', ha', hco', hv'⟩)

/-- Removing entries that a version does not see changes nothing for it. -/
theorem isNewest_congr {kept : List (DbKey × Entry)} (hsub : kept ⊆ entries)
    (hkept : ∀ x, IsNewest entries attId coords v x → x ∈ kept) :
    IsNewest kept attId coords v e ↔ IsNewest entries attId coords v e := by
  constructor
  · intro h
    refine ⟨hsub h.mem, h.attId_eq, h.coords_eq, h.le, ?_⟩
    intro e' he' ha hco hle
    rcases exists_isNewest he' ha hco hle with ⟨x, hx, hle'⟩
    exact hle'.trans (h.newest x (hkept x hx) hx.attId_eq hx.coords_eq hx.le)
  · intro h
    exact ⟨hkept e h, h.attId_eq, h.coords_eq, h.le, fun x hx => h.newest x (hsub hx)⟩

/-- A live version does not see dead records. -/
theorem IsNewest.not_dead (h : IsNewest entries attId coords v e) (hlive : lastLive ≠ 0)
    (hv : lastLive ≤ v) :
    ¬Dead entries lastLive e.1 := by
  rintro (h0 | ⟨e', he', hsame, hlt, hle⟩)
  · exact hlive h0
  · have hle' := h.newest e' he' (hsame.1.trans h.attId_eq) (hsame.2.trans h.coords_eq)
      (hle.trans hv)
    exact hlt.not_ge hle'

/-- Purging old versions is invisible to live ones: every version from the oldest
live one on sees the same entries, only entries of older versions are deleted, and
the oldest live version has at most one entry of each chunk that it or an older one
wrote.  Without a live version nothing is left.  Other indexes keep their records. -/
theorem removeVersions_invisible {as : Attributes} {renumber : Bool} (hd : d ≠ DataStoreKey.zero)
    (hc : Closed db.store d)
    (hs : StoredBy as renumber (content db.store d)) (lastLive : Nat) :
    ∃ db', removeVersions as db d lastLive = .ok (db', decide (lastLive = 0)) ∧
      (0 < lastLive →
        (∀ attId coords v, lastLive ≤ v → ∀ e,
          IsNewest (content db'.store d).entries attId coords v e ↔
            IsNewest (content db.store d).entries attId coords v e) ∧
        (∀ e ∈ (content db.store d).entries,
          e ∉ (content db'.store d).entries → e.1.arrVerId < lastLive) ∧
        (∀ e ∈ (content db'.store d).entries, e ∈ (content db.store d).entries) ∧
        ∀ e ∈ (content db'.store d).entries,
          ∀ e' ∈ (content db'.store d).entries, SameChunk e.1 e'.1 →
            e.1.arrVerId ≤ lastLive → e'.1.arrVerId ≤ lastLive → e = e') ∧
      (lastLive = 0 → (content db'.store d).entries = []) ∧
      ∀ k : DbKey, k.dsk ≠ d → db'.store.get k = db.store.get k := by
  refine ⟨_, removeVersions_eq hd hc hs lastLive, ?_, ?_, fun k hk => purge_get_of_ne hk⟩
  · intro hlive
    refine ⟨?_, ?_, ?_, ?_⟩
    · intro attId coords v hv e
      apply isNewest_congr
      · intro x hx
        exact (mem_content_purge.mp hx).1
      · intro x hx
        exact mem_content_purge.mpr ⟨hx.mem, hx.not_dead hlive.ne' hv⟩
    · intro e he hgone
      have hdead : Dead (content db.store d).entries lastLive e.1 := by
        by_contra h
        exact hgone (mem_content_purge.mpr ⟨he, h⟩)
      rcases hdead with h0 | ⟨e', -, -, hlt, hle⟩
      · omega
      · exact hlt.trans_le hle
    · intro e he
      exact (mem_content_purge.mp he).1
    · intro e he e' he' hsame hle hle'
      rw [mem_content_purge] at he he'
      -- the older one of the two would be dead
      rcases lt_trichotomy e.1.arrVerId e'.1.arrVerId with hlt | heq | hlt
      · exact (he.2 (.inr ⟨e', he'.1, hsame.symm, hlt, hle'⟩)).elim
      · have hk : e.1 = e'.1 :=
          DbKey.ext ((mem_content.mp he.1).2.1.trans
            (mem_content.mp he'.1).2.1.symm) hsame.1 heq hsame.2
        have hx := mem_entries.mp he.1
        have hx' := mem_entries.mp he'.1
        rw [hk, hx', Option.some.injEq] at hx
        exact Prod.ext hk hx.symm
      · exact (he'.2 (.inr ⟨e, he.1, hsame, hlt, hle⟩)).elim
  · intro h0
    rw [eq_nil_iff_forall_not_mem]
    intro e he
    exact (mem_content_purge.mp he).2 (.inl h0)

/-- An array with one attribute and the empty bitmap. -/
def sampleAttributes : Attributes where
  attrs := [⟨0, false⟩, ⟨1, true⟩]
  id_lt := by decide
  eq_of_id := by decide
  eq_of_ebm := by decide

/-- Where the record of a chunk lies, by the version. -/
def sampleRecord (version : Nat) : DbKey :=
  fillKey true ⟨1, 1⟩ ⟨0, false⟩ [0] (by decide) version

/-- One chunk in the versions 1, 2 and 4, the last one a tombstone. -/
def sampleIndex : RocksDb DbKey where
  store :=
    [(4, { }), (2, { key := ⟨⟨1, 1⟩, 8192, 10, 10, 4096⟩ }),
      (1, { key := ⟨⟨1, 1⟩, 4096, 10, 10, 4096⟩ })].foldl
      (fun store x => store.insert (sampleRecord x.1) ⟨x.2, ⟨0, 1, 1⟩⟩)
      (OrdMap.empty.insert (keyMax ⟨1, 1⟩) ⟨{ }, ⟨0, 0, 0⟩⟩)
  deletedIndexes := []

/-- Version 1 is purged while version 3 sees what version 2 wrote. -/
theorem removeVersions_invisible_sample :
    ∃ db', removeVersions sampleAttributes sampleIndex ⟨1, 1⟩ 3 = .ok (db', false) ∧
      ∀ e, IsNewest (content db'.store ⟨1, 1⟩).entries 0 [0] 3 e ↔
        IsNewest (content sampleIndex.store ⟨1, 1⟩).entries 0 [0] 3 e := by
  have hclosed : Closed sampleIndex.store ⟨1, 1⟩ :=
    ⟨(keyMax ⟨1, 1⟩, ⟨{ }, ⟨0, 0, 0⟩⟩), by decide +kernel, le_rfl⟩
  have hstored : StoredBy sampleAttributes true (content sampleIndex.store ⟨1, 1⟩) := by
    unfold StoredBy
    decide +kernel
  rcases removeVersions_invisible (by decide) hclosed hstored 3 with ⟨db', h, hlive, -⟩
  exact ⟨db', h, (hlive (by decide)).1 0 [0] 3 le_rfl⟩

/-- Rolling back the newest version undoes it: the versions before it see what they saw, and
those from it on see what the one before it sees. -/
theorem rollbackVersion_undoes (hd : d ≠ DataStoreKey.zero) (hc : Closed db.store d) {last : Nat}
    (hnewest : ∀ e ∈ (content db.store d).entries, e.1.arrVerId ≤ last + 1) :
    ∃ db', rollbackVersion db d (last + 1) = .ok db' ∧ ∀ attId coords v e,
      IsNewest (content db'.store d).entries attId coords v e ↔
        IsNewest (content db.store d).entries attId coords (min v last) e := by
  obtain ⟨db', hdb', hmem⟩ : ∃ db', rollbackVersion db d (last + 1) = .ok db' ∧ ∀ x,
      x ∈ (content db'.store d).entries ↔
        x ∈ (content db.store d).entries ∧ x.1.arrVerId ≤ last := by
    refine ⟨_, rollbackVersion_eq hd hc _, fun x => ?_⟩
    have hx := hnewest x
    rw [mem_content] at hx ⊢
    rw [mem_content, OrdMap.filter, mem_filter, @decide_eq_true_iff]
    constructor
    · rintro ⟨⟨he, hne⟩, hk⟩
      exact ⟨⟨he, hk⟩, Nat.le_of_lt_succ ((hx ⟨he, hk⟩).lt_of_ne fun h => hne ⟨hk.1, hk.2, h⟩)⟩
    · rintro ⟨⟨he, hk⟩, hle⟩
      exact ⟨⟨he, fun h => (Nat.lt_succ_of_le hle).ne h.2.2⟩, hk⟩
  refine ⟨db', hdb', fun attId coords v e => ⟨fun h => ?_, fun h => ?_⟩⟩
  · have hkept := (hmem e).mp h.mem
    refine ⟨hkept.1, h.attId_eq, h.coords_eq, le_min h.le hkept.2, fun x hx ha hco hle => ?_⟩
    rw [le_min_iff] at hle
    exact h.newest x ((hmem x).mpr ⟨hx, hle.2⟩) ha hco hle.1
  · have hle := le_min_iff.mp h.le
    refine ⟨(hmem e).mpr ⟨h.mem, hle.2⟩, h.attId_eq, h.coords_eq, hle.1, fun x hx ha hco hv => ?_⟩
    have hkept := (hmem x).mp hx
    exact h.newest x hkept.1 ha hco (le_min hv hkept.2)

/-- Without the tombstone, the versions from 4 on see what version 3 sees. -/
theorem rollbackVersion_undoes_sample :
    ∃ db', rollbackVersion sampleIndex ⟨1, 1⟩ 4 = .ok db' ∧ ∀ attId coords v e,
      IsNewest (content db'.store ⟨1, 1⟩).entries attId coords v e ↔
        IsNewest (content sampleIndex.store ⟨1, 1⟩).entries attId coords (min v 3) e :=
  rollbackVersion_undoes (by decide)
    ⟨(keyMax ⟨1, 1⟩, ⟨{ }, ⟨0, 0, 0⟩⟩), by decide +kernel, le_rfl⟩ (by decide +kernel)

end SciDB.Index
