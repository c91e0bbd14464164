import SciDB.Index.Key
import SciDB.Lib.Checked

/-!
# The two index maps

`BasicIndexMap` (`src/storage/IndexMap.cpp`) keeps an index in a `std::map`;
`RocksIndexMap` (`src/storage/PersistentIndexMap.cpp`) keeps all indexes in one
ordered store, each closed by a sentinel, the largest key of the index.

An iterator of the first is a node of the live map, an iterator of the second the
remaining entries of the snapshot it was made on.

Main results:

- Theorem {lit}`RocksIndexMap.seek_points`: where an iterator of the shared store
  stands in its own index.
- Theorems {lit}`RocksIndexMap.find_points`, {lit}`RocksIndexMap.begin_points` and
  {lit}`RocksIndexMap.next_points`: the iterators of an index never see a
  neighbouring one.
- Theorems {lit}`RocksIndexMap.rollbackVersion_eq` and {lit}`RocksIndexMap.clear_eq`:
  what is left after them.
- Theorem {lit}`RocksIndexMap.cleansUp_iff`: when the keys of removed indexes are
  removed completely.
-/

namespace SciDB.Index

open OrderedMap KeyMeta List OrdMap

variable {Key : Type} [KeyMeta Key] {deleted : List DataStoreKey} {e : Key × Entry}

/-- What can go wrong in an index map. -/
inductive MapFault
  /-- a `std::map` iterator is used at `end()` or after its node was erased -/
  | badIterator
  /-- `SCIDB_ASSERT(rocksIt->Valid())`, or a key is read from an iterator that is
  not valid -/
  | notValid
deriving DecidableEq, Repr

/-! ## BasicIndexMap -/

/-- `BasicIndexMap`: `_inMemoryMap` -/
abbrev BasicIndexMap (Key : Type) [KeyMeta Key] : Type :=
  OrdMap Key Entry

/-- `BasicIterator`: the node it points to, `none` for `end()`. -/
abbrev BasicIterator (Key : Type) : Type :=
  Option Key

namespace BasicIndexMap

variable (m : BasicIndexMap Key)

variable (k : Key) {rest : List (Key × Entry)}

def find : BasicIterator Key :=
  if (m.get k).isSome then some k else none

def begin : BasicIterator Key :=
  m.entries.head?.map Prod.fst

def leastUpper : BasicIterator Key :=
  (m.seek k).head?.map Prod.fst

/-- `operator++` -/
def next : BasicIterator Key → Except MapFault (BasicIterator Key)
  | none => .error .badIterator
  | some k =>
    if (m.get k).isSome then .ok ((m.entries.find? (fun e => k < e.1)).map Prod.fst)
    else .error .badIterator

/-- `isEnd`, and the key, handle and metadata of an iterator that is not at the end. -/
def deref : BasicIterator Key → Except MapFault (Option (Key × Entry))
  | none => .ok none
  | some k =>
    match m.get k with
    | some e => .ok (some (k, e))
    | none => .error .badIterator

def insert (e : Entry) : Bool × BasicIndexMap Key :=
  if (m.get k).isSome then (false, m) else (true, OrdMap.insert m k e)

/-- `update` returns the value it replaces, or a null handle. -/
def update (e : Entry) : BufferHandle × BasicIndexMap Key :=
  (((m.get k).map Entry.value).getD { }, OrdMap.insert m k e)

def erase : BasicIterator Key → Except MapFault (BasicIndexMap Key)
  | none => .error .badIterator
  | some k => if (m.get k).isSome then .ok (OrdMap.erase m k) else .error .badIterator

def clear : BasicIndexMap Key :=
  OrdMap.empty

/-- The loop of `rollbackVersion`, with the nodes from `it` on: the key that is
tested is the one behind the node that is erased, and behind the last node that
is `end()`. -/
def rollbackLoop (version : Nat) :
    BasicIndexMap Key → List (Key × Entry) → Except MapFault (BasicIndexMap Key)
  | m, [] => .ok m
  | _, [_] => .error .badIterator
  | m, toRemove :: it :: rest =>
    rollbackLoop version
      (if keyVersion it.1 = version then OrdMap.erase m toRemove.1 else m) (it :: rest)

def rollbackVersion (version : Nat) : Except MapFault (BasicIndexMap Key) :=
  rollbackLoop version m m.entries

/-- A node of the map, with the entries from it on. -/
theorem deref_eq (h : rest <:+ m.entries) : deref m (rest.head?.map Prod.fst) = .ok rest.head? := by
  cases rest with
  | nil => rfl
  | cons e rest => simp [deref, get_of_suffix h]

theorem next_eq (h : (e :: rest) <:+ m.entries) :
    next m (some e.1) = .ok (rest.head?.map Prod.fst) := by
  rw [next, get_of_suffix h, m.sorted.find?_gt h]
  rfl

theorem find_eq : find m k = (if (m.get k).isSome then m.seek k else []).head?.map Prod.fst := by
  rw [find]
  cases hg : m.get k with
  | none => rfl
  | some x => simp [seek_of_get hg]

/-- Only a rollback of an empty index does not run into `end()`. -/
theorem rollbackVersion_of_nil (h : m.entries = []) (version : Nat) :
    rollbackVersion m version = .ok m := by
  rw [rollbackVersion, h, rollbackLoop]

end BasicIndexMap

/-! ## RocksIndexMap -/

/-- The database that all persistent indexes share, with the indexes whose keys
the compaction filter drops. -/
structure RocksDb (Key : Type) [KeyMeta Key] where
  store : OrdMap Key Entry
  deletedIndexes : List DataStoreKey

/-- `RocksIterator`: the entries of its snapshot from its position on; an iterator
without entries is not `Valid()`. -/
abbrev RocksIterator (Key : Type) : Type :=
  List (Key × Entry)

namespace RocksIndexMap

variable (db : RocksDb Key) (d : DataStoreKey)

/-- `_keyMaxPred` -/
def keyMaxPred (d : DataStoreKey) : Key :=
  keyMax d.predecessor

/-- The constructor puts the end-of-index marker; its value is the empty slice, and
`marker` what an access to it would find. -/
def construct (marker : Entry) : RocksDb Key :=
  { db with store := db.store.insert (keyMax d) marker }

def isEnd : RocksIterator Key → Except MapFault Bool
  | [] => .error .notValid
  | e :: _ => .ok (!decide (e.1 < keyMax d))

/-- `operator++` -/
def next (it : RocksIterator Key) : Except MapFault (RocksIterator Key) := do
  if ← isEnd d it then .ok it else .ok it.tail

/-- `isEnd`, and the key, handle and metadata of an iterator that is not at the end. -/
def deref (it : RocksIterator Key) : Except MapFault (Option (Key × Entry)) := do
  if ← isEnd d it then .ok none else .ok it.head?

def find (k : Key) : Except MapFault (RocksIterator Key) :=
  match db.store.seek k with
  | [] => .error .notValid
  | e :: rest =>
    if k = e.1 then .ok (e :: rest)
    else
      -- not found, seek to the end-of-index marker
      match db.store.seek (keyMax d) with
      | [] => .error .notValid
      | e' :: rest' => .ok (e' :: rest')

def begin : Except MapFault (RocksIterator Key) :=
  match db.store.seek (keyMaxPred d) with
  | [] => .error .notValid
  | e :: rest =>
    let it := if keyMaxPred d = e.1 then rest else e :: rest
    if it = [] then .error .notValid else .ok it

def leastUpper (k : Key) : Except MapFault (RocksIterator Key) :=
  match db.store.seek k with
  | [] => .error .notValid
  | e :: rest => .ok (e :: rest)

def insert (k : Key) (e : Entry) : Bool × RocksDb Key :=
  match db.store.get k with
  | some _ => (false, db)
  | none => (true, { db with store := db.store.insert k e.atRest })

def update (k : Key) (e : Entry) : BufferHandle × RocksDb Key :=
  (((db.store.get k).map Entry.value).getD { }, { db with store := db.store.insert k e.atRest })

/-- `erase(BaseIterator&)` -/
def erase : RocksIterator Key → Except MapFault (RocksDb Key)
  | [] => .error .notValid
  | e :: _ => .ok { db with store := db.store.erase e.1 }

/-- `ScidbCompactFactory::checkDeletedSet`: an index stays marked while the store
has a key of it. -/
def checkDeletedSet (store : OrdMap Key Entry) (deleted : List DataStoreKey) :
    List DataStoreKey :=
  deleted.filter fun d =>
    match store.seek (keyMaxPred d) with
    | [] => false
    | e :: _ => dsk e.1 = d

/-- `ScidbCompact`: the data store key of the key before, and what was found for it. -/
structure ScidbCompact where
  savedDsk : DataStoreKey := .zero
  savedRes : Bool := false

/-- `ScidbCompact::Filter`, which returns `savedRes`. -/
def ScidbCompact.filter (s : ScidbCompact) (deleted : List DataStoreKey) (k : Key) :
    ScidbCompact :=
  if dsk k ≠ s.savedDsk then ⟨dsk k, decide (dsk k ∈ deleted)⟩ else s

/-- The keys that are removed of those a compaction presents. -/
def ScidbCompact.filtered (deleted : List DataStoreKey) : ScidbCompact → List Key → List Key
  | _, [] => []
  | s, k :: keys =>
    let s := s.filter deleted k
    if s.savedRes then k :: filtered deleted s keys else filtered deleted s keys

/-- A compaction of the keys in a range. -/
def compact (range : Key → Bool) : RocksDb Key :=
  let gone := ScidbCompact.filtered db.deletedIndexes { }
    ((db.store.entries.map Prod.fst).filter range)
  { db with store := db.store.filter fun k => decide (k ∉ gone) }

/-- `~ScidbCompact` -/
def endCompaction : RocksDb Key :=
  { db with deletedIndexes := checkDeletedSet db.store db.deletedIndexes }

/-- `clear` marks the index and compacts its range. -/
def clear : RocksDb Key :=
  let db := { db with deletedIndexes := d :: db.deletedIndexes }
  endCompaction (compact db fun k => decide (keyMaxPred d ≤ k) && decide (k ≤ keyMax d))

/-- The loop of `rollbackVersion`: the keys of the batch. -/
def rollbackBatch (version : Nat) : RocksIterator Key → Except MapFault (List Key)
  | [] => .error .notValid
  | e :: it =>
    if e.1 < keyMax d then do
      let batch ← rollbackBatch version it
      .ok (if keyVersion e.1 = version then e.1 :: batch else batch)
    else .ok []

def rollbackVersion (version : Nat) : Except MapFault (RocksDb Key) := do
  let it ← begin db d
  let batch ← rollbackBatch d version it
  .ok { db with store := batch.foldl OrdMap.erase db.store }

/-! ## An index inside the shared store -/

/-- The records of an index. -/
def content (store : OrdMap Key Entry) (d : DataStoreKey) : OrdMap Key Entry :=
  store.filter fun k => decide (dsk k = d ∧ k ≠ keyMax d)

/-- Some key closes the index: its own marker, or a key of a later index. -/
def Closed (store : OrdMap Key Entry) (d : DataStoreKey) : Prop :=
  ∃ e ∈ store.entries, keyMax d ≤ e.1

/-- The iterator has the records `l` of its index before it. -/
def Points (d : DataStoreKey) (it l : List (Key × Entry)) : Prop :=
  (∀ e ∈ l, e.1 < keyMax d) ∧ ∃ e rest, it = l ++ e :: rest ∧ keyMax d ≤ e.1

variable {db d} {store : OrdMap Key Entry} {it l : List (Key × Entry)} {k : Key}

/-- Erasing a record does not open the index. -/
theorem Closed.erase (h : Closed store d) (hk : k < keyMax d) : Closed (store.erase k) d := by
  rcases h with ⟨e, he, hle⟩
  refine ⟨e, mem_filter.mpr ⟨he, ?_⟩, hle⟩
  simpa using (hk.trans_le hle).ne'

theorem Points.cons (h : Points d it l) : ∃ e rest, it = e :: rest := by
  rcases h with ⟨-, e, rest, rfl, -⟩
  exact exists_cons_of_ne_nil (by simp)

/-- An iterator before a record stands on it. -/
theorem Points.uncons {x : Key × Entry} (h : Points d it (x :: l)) :
    ∃ it', it = x :: it' ∧ x.1 < keyMax d ∧ Points d it' l := by
  rcases h with ⟨hl, e, rest, rfl, he⟩
  exact ⟨l ++ e :: rest, rfl, hl x mem_cons_self,
    fun y hy => hl y (mem_cons_of_mem x hy), e, rest, rfl, he⟩

/-- An iterator behind the last record stands on a key behind the index. -/
theorem Points.behind (h : Points d it []) : ∃ e rest, it = e :: rest ∧ ¬e.1 < keyMax d := by
  rcases h with ⟨-, e, rest, rfl, he⟩
  exact ⟨e, rest, rfl, he.not_gt⟩

theorem Points.isEnd (h : Points d it l) : isEnd d it = .ok l.isEmpty := by
  rcases h with ⟨hl, e, rest, rfl, he⟩
  cases l with
  | nil => simp [RocksIndexMap.isEnd, he]
  | cons x l => simp [RocksIndexMap.isEnd, hl x mem_cons_self]

theorem Points.deref (h : Points d it l) : deref d it = .ok l.head? := by
  rw [RocksIndexMap.deref, h.isEnd]
  rcases h with ⟨-, e, rest, rfl, -⟩
  cases l with
  | nil => rfl
  | cons x l => rfl

/-- Advancing an iterator stays in the index. -/
theorem next_points (h : Points d it l) : ∃ it', next d it = .ok it' ∧ Points d it' l.tail := by
  rw [next, h.isEnd]
  cases l with
  | nil => exact ⟨it, rfl, h⟩
  | cons x l =>
    rcases h.uncons with ⟨it', rfl, -, h'⟩
    exact ⟨it', rfl, h'⟩

/-- An iterator that will meet a key behind the index has the keys of the index
before it. -/
theorem points_of_sorted (h : Sorted it) (hc : ∃ e ∈ it, keyMax d ≤ e.1) :
    Points d it (it.filter fun e => decide (e.1 < keyMax d)) := by
  rcases hc with ⟨s, hs, hsd⟩
  have hbehind : s ∈ it.dropWhile (fun e => decide (e.1 < keyMax d)) := by
    rw [h.dropWhile_lt]
    simpa [hs] using hsd
  refine ⟨?_, ?_⟩
  · intro e he
    simpa using (mem_filter.mp he).2
  · rw [← h.takeWhile_lt]
    cases hd : it.dropWhile (fun e => decide (e.1 < keyMax d)) with
    | nil =>
      rw [hd] at hbehind
      cases hbehind
    | cons e rest =>
      refine ⟨e, rest, ?_, ?_⟩
      · rw [← hd, takeWhile_append_dropWhile]
      · have hmem : e ∈ it.dropWhile (fun e => decide (e.1 < keyMax d)) := by
          rw [hd]
          exact mem_cons_self
        rw [h.dropWhile_lt] at hmem
        simpa using (mem_filter.mp hmem).2

theorem mem_content :
    e ∈ (content store d).entries ↔ e ∈ store.entries ∧ dsk e.1 = d ∧ e.1 ≠ keyMax d := by
  rw [content, OrdMap.filter, mem_filter, decide_eq_true_iff]

/-- Where an iterator of the shared store stands in its own index. -/
theorem seek_points (hc : Closed store d) (hk : dsk k = d) :
    Points d (store.seek k) ((content store d).seek k) := by
  rcases hc with ⟨s, hs, hsd⟩
  have hle : k ≤ keyMax d := le_keyMax_iff.mpr hk.le
  have hpoints := points_of_sorted (store.sorted_seek k) ⟨s, mem_seek.mpr ⟨hs, hle.trans hsd⟩, hsd⟩
  convert hpoints using 1
  apply ((content store d).sorted_seek k).ext_mem ((store.sorted_seek k).sublist filter_sublist)
  intro e
  rw [mem_seek, mem_content, mem_filter, mem_seek, decide_eq_true_iff]
  -- from a key of the index on, the keys before the marker are those of the index
  constructor
  · rintro ⟨⟨he, hd, hne⟩, hke⟩
    exact ⟨⟨he, hke⟩, lt_of_le_of_ne (le_keyMax_iff.mpr hd.le) hne⟩
  · rintro ⟨⟨he, hke⟩, hlt⟩
    exact ⟨⟨he, le_antisymm (le_keyMax_iff.mp hlt.le) (hk ▸ dsk_mono hke), hlt.ne⟩, hke⟩

theorem leastUpper_points (hc : Closed db.store d) (hk : dsk k = d) :
    ∃ it, leastUpper db k = .ok it ∧ Points d it ((content db.store d).seek k) := by
  have hpoints := seek_points hc hk
  rcases hpoints.cons with ⟨e, rest, hit⟩
  refine ⟨db.store.seek k, ?_, hpoints⟩
  rw [leastUpper, hit]

theorem content_get (hk : dsk k = d) (hne : k ≠ keyMax d) :
    (content store d).get k = store.get k := by
  rw [content, get_filter, if_pos (by simp [hk, hne])]

theorem content_erase (k : Key) : content (store.erase k) d = (content store d).erase k := by
  rw [content, content, OrdMap.erase, OrdMap.erase, OrdMap.filter_comm]

/-- A change of the keys of another index. -/
theorem content_filter_of_ne {d' : DataStoreKey} {p : Key → Bool}
    (h : ∀ k, dsk k = d' → p k) : content (store.filter p) d' = content store d' := by
  rw [content, OrdMap.filter_comm]
  exact filter_eq_self fun e he => h e.1 (mem_content.mp he).2.1

theorem content_seek_keyMax : (content store d).seek (keyMax d) = [] := by
  rw [eq_nil_iff_forall_not_mem]
  intro e he
  rw [mem_seek, mem_content] at he
  exact he.1.2.2 (le_antisymm (le_keyMax_iff.mpr he.1.2.1.le) he.2)

/-- Looking for a key finds it, or the end of the index. -/
theorem find_points (hc : Closed db.store d) (hk : dsk k = d) (hne : k ≠ keyMax d) :
    ∃ it, find db d k = .ok it ∧ Points d it
      (if ((content db.store d).get k).isSome then (content db.store d).seek k else []) := by
  have hpoints := seek_points hc hk
  have hend := seek_points hc (dsk_keyMax d)
  rcases hpoints.cons with ⟨e, rest, hit⟩
  rcases hend.cons with ⟨e', rest', hit'⟩
  rw [content_get hk hne, get_of_seek hit, find, hit]
  by_cases heq : k = e.1
  · refine ⟨db.store.seek k, ?_, ?_⟩
    · rw [hit]
      exact if_pos heq
    · rw [if_pos heq]
      exact hpoints
  · refine ⟨db.store.seek (keyMax d), ?_, ?_⟩
    · simp [if_neg heq, hit']
    · rw [if_neg heq, ← content_seek_keyMax]
      exact hend

/-- Looking for a stored key finds it. -/
theorem find_stored (hc : Closed db.store d) (hk : dsk k = d) (hne : k ≠ keyMax d) {x : Entry}
    (hx : db.store.get k = some x) :
    ∃ it, find db d k = .ok ((k, x) :: it) ∧ k < keyMax d := by
  rcases find_points hc hk hne with ⟨it, hit, hp⟩
  have hget : (content db.store d).get k = some x := by rw [content_get hk hne, hx]
  rw [hget, seek_of_get hget] at hp
  rcases hp.uncons with ⟨it', rfl, hlt, -⟩
  exact ⟨it', hit, hlt⟩

/-- The first record of the index is the first key behind the preceding marker. -/
theorem begin_points (hd : d ≠ DataStoreKey.zero) (hc : Closed db.store d) :
    ∃ it, begin db d = .ok it ∧ Points d it (content db.store d).entries := by
  rcases hc with ⟨s, hs, hsd⟩
  have hlt : (keyMaxPred d : Key) < keyMax d :=
    (keyMax_predecessor_lt_iff hd).mpr (dsk_keyMax d).ge
  have hmem : s ∈ db.store.entries.filter (fun e => decide (keyMaxPred d < e.1)) := by
    simpa [hs] using hlt.trans_le hsd
  have hit : begin db d = .ok (db.store.entries.filter (fun e => decide (keyMaxPred d < e.1))) := by
    cases hseek : db.store.seek (keyMaxPred d) with
    | nil =>
      have hmem' := hseek ▸ mem_seek.mpr ⟨hs, hlt.le.trans hsd⟩
      cases hmem'
    | cons e rest =>
      rw [filter_gt_of_seek hseek] at hmem ⊢
      simp only [begin, hseek]
      rw [if_neg (ne_nil_of_mem hmem)]
  refine ⟨_, hit, ?_⟩
  have hpoints := points_of_sorted (db.store.sorted.sublist filter_sublist) ⟨s, hmem, hsd⟩
  convert hpoints using 1
  rw [filter_filter]
  apply filter_congr
  intro e _
  have hiff := between_iff (k := e.1) hd
  simp only [← hiff, Bool.decide_and]
  exact Bool.and_comm _ _

theorem rollbackBatch_eq (version : Nat) (h : Points d it l) :
    rollbackBatch d version it =
      .ok ((l.map Prod.fst).filter fun k => decide (keyVersion k = version)) := by
  rcases h with ⟨hl, e, rest, rfl, he⟩
  induction l with
  | nil =>
    rw [nil_append, rollbackBatch, if_neg he.not_gt]
    rfl
  | cons x l ih =>
    rw [cons_append, rollbackBatch, if_pos (hl x mem_cons_self),
      ih fun y hy => hl y (mem_cons_of_mem x hy), map_cons]
    by_cases hx : keyVersion x.1 = version
    · rw [filter_cons_of_pos (by simpa using hx)]
      simp only [hx]
      rfl
    · rw [filter_cons_of_neg (by simpa using hx)]
      simp only [hx]
      rfl

/-- A rollback removes the records of the version, and nothing of other indexes. -/
theorem rollbackVersion_eq (hd : d ≠ DataStoreKey.zero) (hc : Closed db.store d) (version : Nat) :
    rollbackVersion db d version = .ok
      { db with store := db.store.filter fun k =>
          decide (¬(dsk k = d ∧ k ≠ keyMax d ∧ keyVersion k = version)) } := by
  rcases begin_points hd hc with ⟨it, hit, hpoints⟩
  rw [rollbackVersion, hit]
  simp only [Except.bind, bind, rollbackBatch_eq version hpoints]
  congr 2
  apply OrdMap.ext_get
  intro k
  rw [get_foldl_erase, get_filter]
  cases hg : db.store.get k with
  | none => simp
  | some x =>
    have hmem := mem_entries.mpr hg
    have hiff : k ∈ (((content db.store d).entries.map Prod.fst).filter fun k =>
        decide (keyVersion k = version)) ↔
        dsk k = d ∧ k ≠ keyMax d ∧ keyVersion k = version := by
      rw [mem_filter, mem_map, decide_eq_true_iff, ← and_assoc]
      apply and_congr_left
      intro _
      constructor
      · rintro ⟨e, he, rfl⟩
        exact (mem_content.mp he).2
      · intro hk
        exact ⟨(k, x), mem_content.mpr ⟨hmem, hk⟩, rfl⟩
    by_cases hk : dsk k = d ∧ k ≠ keyMax d ∧ keyVersion k = version
    · rw [if_pos (hiff.mpr hk), if_neg (by simpa using hk)]
    · rw [if_neg (hiff.not.mpr hk), if_pos (decide_eq_true hk)]

/-! ## Deleted indexes -/

/-- In key order, the filter removes the keys of the marked indexes, unless an index
has the data store key it starts with. -/
theorem ScidbCompact.filtered_eq {s : ScidbCompact}
    {keys : List Key} (hkeys : keys.Pairwise (· < ·)) (hlow : ∀ k ∈ keys, s.savedDsk ≤ dsk k)
    (hs : s.savedRes = decide (s.savedDsk ∈ deleted ∧ s.savedDsk ≠ .zero)) :
    filtered deleted s keys = keys.filter fun k => decide (dsk k ∈ deleted ∧ dsk k ≠ .zero) := by
  induction keys generalizing s with
  | nil => rfl
  | cons k keys ih =>
    rw [pairwise_cons] at hkeys
    have hk := hlow k mem_cons_self
    -- the state after the key is the one the induction needs
    have hdsk : (s.filter deleted k).savedDsk = dsk k := by
      rw [ScidbCompact.filter]
      split <;> simp_all
    have hres : (s.filter deleted k).savedRes = decide (dsk k ∈ deleted ∧ dsk k ≠ .zero) := by
      rw [ScidbCompact.filter]
      by_cases heq : dsk k = s.savedDsk
      · rw [if_neg (not_not.mpr heq), hs, heq]
      · have hzero : dsk k ≠ .zero := fun hz =>
          heq (le_antisymm (hz ▸ DataStoreKey.zero_le _) hk)
        simp [heq, hzero]
    rw [filtered, ih hkeys.2 (fun x hx => hdsk ▸ dsk_mono (hkeys.1 x hx).le) (hdsk ▸ hres),
      filter_cons, hres]

/-- A compaction removes the keys of the marked indexes in its range. -/
theorem get_compact (range : Key → Bool) (k : Key) :
    (compact db range).store.get k =
      if range k ∧ dsk k ∈ db.deletedIndexes ∧ dsk k ≠ .zero then none else db.store.get k := by
  have hkeys : ((db.store.entries.map Prod.fst).filter range).Pairwise (· < ·) :=
    (pairwise_map.mpr db.store.sorted).sublist filter_sublist
  rw [compact, get_filter, ScidbCompact.filtered_eq hkeys (fun _ _ => DataStoreKey.zero_le _)
    (by simp)]
  cases hg : db.store.get k with
  | none => simp
  | some x =>
    have hmem : k ∈ db.store.entries.map Prod.fst := mem_map.mpr ⟨_, mem_entries.mpr hg, rfl⟩
    simp only [mem_filter, hmem, true_and, decide_eq_true_iff, ite_not]

/-- A mark is kept if a key of the index is found behind the preceding marker, which
must not be stored itself. -/
theorem mem_checkDeletedSet :
    d ∈ checkDeletedSet store deleted ↔
      d ∈ deleted ∧ (∃ e ∈ store.entries, dsk e.1 = d) ∧
        d ≠ .zero ∧ store.get (keyMaxPred d) = none := by
  rw [checkDeletedSet, mem_filter]
  apply and_congr_right
  intro _
  constructor
  · intro h
    cases hseek : store.seek (keyMaxPred d) with
    | nil => simp [hseek] at h
    | cons x rest =>
      rcases seek_cons hseek with ⟨⟨hx, hle⟩, -⟩
      have hdsk : dsk x.1 = d := by simpa [hseek] using h
      have hge : d.predecessor ≤ d := by simpa [keyMaxPred, hdsk] using dsk_mono hle
      have hd : d ≠ .zero := by
        rintro rfl
        exact absurd hge (by decide)
      refine ⟨⟨x, hx, hdsk⟩, hd, ?_⟩
      rw [get_of_seek hseek, if_neg]
      intro heq
      rw [← heq, keyMaxPred, dsk_keyMax] at hdsk
      exact lt_irrefl d ((DataStoreKey.le_predecessor_iff hd).mp hdsk.ge)
  · rintro ⟨⟨e, he, hdsk⟩, hd, hnone⟩
    have hlt : keyMaxPred d < e.1 := (keyMax_predecessor_lt_iff hd).mpr hdsk.ge
    cases hseek : store.seek (keyMaxPred d) with
    | nil =>
      have hmem := hseek ▸ mem_seek.mpr ⟨he, hlt.le⟩
      cases hmem
    | cons x rest =>
      rcases seek_cons hseek with ⟨⟨-, hle⟩, hleast⟩
      rw [get_of_seek hseek] at hnone
      have hne : keyMaxPred d ≠ x.1 := by
        intro heq
        simp [heq] at hnone
      have hx := (keyMax_predecessor_lt_iff hd).mp (lt_of_le_of_ne hle hne)
      simpa using le_antisymm (hdsk ▸ dsk_mono (hleast e he hlt.le)) hx

/-- Nothing of a cleared index is left, its marker neither. -/
theorem clear_eq (hd : d ≠ DataStoreKey.zero) (hdel : db.deletedIndexes = []) :
    clear db d = ⟨db.store.filter fun k => decide (dsk k ≠ d), []⟩ := by
  have hstore : (compact { db with deletedIndexes := [d] }
      fun k => decide (keyMaxPred d ≤ k) && decide (k ≤ keyMax d)).store =
      db.store.filter fun k => decide (dsk k ≠ d) := by
    apply OrdMap.ext_get
    intro k
    rw [get_compact, get_filter]
    by_cases hk : dsk k = d
    · have hlow : keyMaxPred d ≤ k := ((keyMax_predecessor_lt_iff hd).mpr hk.ge).le
      simp [hk, hlow, le_keyMax_iff.mpr hk.le, hd]
    · simp [hk]
  rw [clear, hdel, endCompaction, hstore]
  congr 1
  rw [eq_nil_iff_forall_not_mem]
  intro x hx
  rcases mem_checkDeletedSet.mp hx with ⟨hmem, ⟨e, he, hdsk⟩, -⟩
  have hne := (mem_filter.mp he).2
  simp [hdsk, mem_singleton.mp hmem] at hne

/-- No key of an index is left when its mark is dropped, and compactions remove the
keys of the marked indexes they meet, and no others. -/
def CleansUp (db : RocksDb Key) : Prop :=
  (∀ d ∈ db.deletedIndexes, d ∉ (endCompaction db).deletedIndexes →
    ∀ e ∈ db.store.entries, dsk e.1 ≠ d) ∧
  ∀ range : Key → Bool, ∀ e ∈ db.store.entries,
    (compact db range).store.get e.1 = none ↔ range e.1 ∧ dsk e.1 ∈ db.deletedIndexes

/-- Removed indexes are cleaned up completely if and only if no marked index that has
keys lies right behind a marker that is stored, or has the first data store key. -/
theorem cleansUp_iff (db : RocksDb Key) :
    CleansUp db ↔ ∀ e ∈ db.store.entries, dsk e.1 ∈ db.deletedIndexes →
      dsk e.1 ≠ .zero ∧ db.store.get (keyMaxPred (dsk e.1)) = none := by
  have hkept : ∀ e ∈ db.store.entries, dsk e.1 ∈ db.deletedIndexes →
      (dsk e.1 ∈ (endCompaction db).deletedIndexes ↔
        dsk e.1 ≠ .zero ∧ db.store.get (keyMaxPred (dsk e.1)) = none) := by
    intro e he hmark
    rw [endCompaction, mem_checkDeletedSet, and_iff_right hmark, and_iff_right ⟨e, he, rfl⟩]
  constructor
  · intro h e he hmark
    rw [← hkept e he hmark]
    by_contra hgone
    exact h.1 _ hmark hgone e he rfl
  · intro h
    refine ⟨?_, ?_⟩
    · rintro d hd hgone e he rfl
      exact hgone ((hkept e he hd).mpr (h e he hd))
    · intro range e he
      have hget : db.store.get e.1 = some e.2 := mem_entries.mp he
      rw [get_compact, hget]
      by_cases hmark : dsk e.1 ∈ db.deletedIndexes
      · simp [(h e he hmark).1]
      · simp [hmark]

/-- Two indexes with neighbouring keys; the second one, which has a record, is marked. -/
def sampleStore : RocksDb DbKey where
  store := [keyMax ⟨1, 1⟩, ⟨⟨1, 2⟩, 0, 1, [0], by decide⟩, keyMax ⟨1, 2⟩].foldl
    (fun store k => store.insert k ⟨{ }, ⟨0, 0, 0⟩⟩) OrdMap.empty
  deletedIndexes := [⟨1, 2⟩]

/-- The mark is dropped although the record is still there, and no compaction removes
it any more. -/
theorem mark_dropped_too_early :
    let db := endCompaction sampleStore
    db.deletedIndexes = [] ∧ (compact db fun _ => true).store.entries = sampleStore.store.entries ∧
      ∃ e ∈ sampleStore.store.entries, dsk e.1 = ⟨1, 2⟩ ∧ e.1 ≠ keyMax ⟨1, 2⟩ := by
  decide +kernel

end RocksIndexMap

end SciDB.Index
