import SciDB.Index.Maps
import SciDB.Lib.Simulation

/-!
# The index maps are interchangeable

Any number of indexes is used through `BasicIndexMap`, through `RocksIndexMap`
and, as the specification, as one plain ordered map for each index.  All three
take the same calls; iterators are numbered in the order in which they are made,
and each call leaves what it returns in the list of results.

Main results:

- Theorem {lit}`basicStep_simulates`: a step of `BasicIndexMap`.
- Theorem {lit}`rocksStep_simulates`: a step of `RocksIndexMap`.
- Theorem {lit}`indexMaps_agree`: both give the results of the plain maps.
-/

namespace SciDB.Index

open OrderedMap KeyMeta Runs Simulation List OrdMap RocksIndexMap BasicIndexMap

/-! ## Calls and results -/

/-- A key of a record of one of the indexes. -/
abbrev RecordKey (Key : Type) [KeyMeta Key] (ds : List DataStoreKey) : Type :=
  {k : Key // dsk k ∈ ds ∧ k ≠ keyMax (dsk k)}

/-- A call to the interface `IndexMap`; iterators are named by their number. -/
inductive MapCall (Key : Type) [KeyMeta Key] (ds : List DataStoreKey)
  | insert (k : RecordKey Key ds) (e : Entry)
  | update (k : RecordKey Key ds) (e : Entry)
  | find (k : RecordKey Key ds)
  | leastUpper (k : RecordKey Key ds)
  | begin (d : {d // d ∈ ds})
  | next (i : Nat)
  | erase (i : Nat)
  | clear (d : {d // d ∈ ds})
  | rollbackVersion (d : {d // d ∈ ds}) (version : Nat)

/-- What a call returns; an iterator is seen as the record it stands on. -/
inductive MapResult (Key : Type)
  | inserted (success : Bool)
  | previous (value : BufferHandle)
  | position (record : Option (Key × Entry))
  | void

variable {Key : Type} [KeyMeta Key] {ds : List DataStoreKey} {rest : List (Key × Entry)}

/-- A result without the traces of the buffer cache in its handles. -/
def MapResult.atRest : MapResult Key → MapResult Key
  | inserted success => inserted success
  | previous value => previous value.resetSlotGenCount
  | position record => position (record.map (Prod.map id Entry.atRest))
  | void => void

/-- Index maps, the iterators made on them, and the results so far. -/
structure MapSystem (Key μ ι : Type) where
  maps : μ
  iterators : List (DataStoreKey × ι)
  results : List (MapResult Key)

namespace MapSystem

variable {μ ι : Type}

variable (s : MapSystem Key μ ι)

/-- Return from a call that changes the maps. -/
def answer (maps : μ) (r : MapResult Key) : MapSystem Key μ ι :=
  { s with maps := maps, results := s.results ++ [r] }

/-- Return a new iterator. -/
def returnIterator (d : DataStoreKey) (it : ι) (record : Option (Key × Entry)) :
    MapSystem Key μ ι :=
  { s with
    iterators := s.iterators ++ [(d, it)]
    results := s.results ++ [.position record] }

/-- Return an iterator that has moved. -/
def moveIterator (i : Nat) (d : DataStoreKey) (it : ι) (record : Option (Key × Entry)) :
    MapSystem Key μ ι :=
  { s with
    iterators := s.iterators.set i (d, it)
    results := s.results ++ [.position record] }

/-- The iterator with a number. -/
def iterator (i : Nat) : Except MapFault (DataStoreKey × ι) :=
  match s.iterators[i]? with
  | some x => .ok x
  | none => .error .badIterator

end MapSystem

/-! ## One plain ordered map for each index -/

/-- The plain maps, with the indexes that were cleared. -/
structure PlainMaps (Key : Type) [KeyMeta Key] where
  map : DataStoreKey → OrdMap Key Entry
  cleared : List DataStoreKey

/-- The records an iterator has before it, until its index is changed. -/
structure Cursor (Key : Type) where
  rest : List (Key × Entry)
  fresh : Bool

abbrev PlainSystem (Key : Type) [KeyMeta Key] : Type :=
  MapSystem Key (PlainMaps Key) (Cursor Key)

namespace PlainSystem

/-- Iterators of a changed index must not be used any more. -/
def outdate (d : DataStoreKey) (x : DataStoreKey × Cursor Key) : DataStoreKey × Cursor Key :=
  if x.1 = d then (x.1, { x.2 with fresh := false }) else x

/-- Return from a call that changes an index. -/
def change (s : PlainSystem Key) (d : DataStoreKey) (m : OrdMap Key Entry)
    (cleared : List DataStoreKey) (r : MapResult Key) : PlainSystem Key :=
  { maps := ⟨Function.update s.maps.map d m, cleared⟩
    iterators := s.iterators.map (outdate d)
    results := s.results ++ [r] }

def step (s : PlainSystem Key) : MapCall Key ds → Except MapFault (PlainSystem Key)
  | .insert k e =>
    let m := s.maps.map (dsk k.1)
    if (m.get k.1).isSome then .ok (s.answer s.maps (.inserted false))
    else .ok (change s (dsk k.1) (m.insert k.1 e) s.maps.cleared (.inserted true))
  | .update k e =>
    let m := s.maps.map (dsk k.1)
    .ok (change s (dsk k.1) (m.insert k.1 e) s.maps.cleared
      (.previous (((m.get k.1).map Entry.value).getD { })))
  | .find k =>
    let m := s.maps.map (dsk k.1)
    let rest := if (m.get k.1).isSome then m.seek k.1 else []
    .ok (s.returnIterator (dsk k.1) ⟨rest, true⟩ rest.head?)
  | .leastUpper k =>
    let rest := (s.maps.map (dsk k.1)).seek k.1
    .ok (s.returnIterator (dsk k.1) ⟨rest, true⟩ rest.head?)
  | .begin d =>
    let rest := (s.maps.map d).entries
    .ok (s.returnIterator d ⟨rest, true⟩ rest.head?)
  | .next i => do
      let x ← s.iterator i
      match x.2 with
      | ⟨_ :: rest, true⟩ => .ok (s.moveIterator i x.1 ⟨rest, true⟩ rest.head?)
      | _ => .error .badIterator
  | .erase i => do
      let x ← s.iterator i
      match x.2 with
      | ⟨e :: _, true⟩ =>
        .ok (change s x.1 ((s.maps.map x.1).erase e.1) s.maps.cleared .void)
      | _ => .error .badIterator
  | .clear d => .ok (change s d OrdMap.empty (d.1 :: s.maps.cleared) .void)
  | .rollbackVersion d version =>
    .ok (change s d ((s.maps.map d).filter fun k => decide (keyVersion k ≠ version))
      s.maps.cleared .void)

end PlainSystem

/-! ## The two implementations -/

abbrev BasicSystem (Key : Type) [KeyMeta Key] : Type :=
  MapSystem Key (DataStoreKey → BasicIndexMap Key) (BasicIterator Key)

namespace BasicSystem

def step (s : BasicSystem Key) : MapCall Key ds → Except MapFault (BasicSystem Key)
  | .insert k e =>
    let (success, m) := BasicIndexMap.insert (s.maps (dsk k.1)) k.1 e
    .ok (s.answer (Function.update s.maps (dsk k.1) m) (.inserted success))
  | .update k e =>
    let (value, m) := BasicIndexMap.update (s.maps (dsk k.1)) k.1 e
    .ok (s.answer (Function.update s.maps (dsk k.1) m) (.previous value))
  | .find k => do
      let it := BasicIndexMap.find (s.maps (dsk k.1)) k.1
      let record ← BasicIndexMap.deref (s.maps (dsk k.1)) it
      .ok (s.returnIterator (dsk k.1) it record)
  | .leastUpper k => do
      let it := BasicIndexMap.leastUpper (s.maps (dsk k.1)) k.1
      let record ← BasicIndexMap.deref (s.maps (dsk k.1)) it
      .ok (s.returnIterator (dsk k.1) it record)
  | .begin d => do
      let it := BasicIndexMap.begin (s.maps d)
      let record ← BasicIndexMap.deref (s.maps d) it
      .ok (s.returnIterator d it record)
  | .next i => do
      let x ← s.iterator i
      let it ← BasicIndexMap.next (s.maps x.1) x.2
      let record ← BasicIndexMap.deref (s.maps x.1) it
      .ok (s.moveIterator i x.1 it record)
  | .erase i => do
      let x ← s.iterator i
      let m ← BasicIndexMap.erase (s.maps x.1) x.2
      .ok (s.answer (Function.update s.maps x.1 m) .void)
  | .clear d => .ok (s.answer (Function.update s.maps d BasicIndexMap.clear) .void)
  | .rollbackVersion d version => do
      let m ← BasicIndexMap.rollbackVersion (s.maps d) version
      .ok (s.answer (Function.update s.maps d m) .void)

end BasicSystem

abbrev RocksSystem (Key : Type) [KeyMeta Key] : Type :=
  MapSystem Key (RocksDb Key) (RocksIterator Key)

namespace RocksSystem

def step (s : RocksSystem Key) : MapCall Key ds → Except MapFault (RocksSystem Key)
  | .insert k e =>
    let (success, db) := RocksIndexMap.insert s.maps k.1 e
    .ok (s.answer db (.inserted success))
  | .update k e =>
    let (value, db) := RocksIndexMap.update s.maps k.1 e
    .ok (s.answer db (.previous value))
  | .find k => do
      let it ← RocksIndexMap.find s.maps (dsk k.1) k.1
      let record ← RocksIndexMap.deref (dsk k.1) it
      .ok (s.returnIterator (dsk k.1) it record)
  | .leastUpper k => do
      let it ← RocksIndexMap.leastUpper s.maps k.1
      let record ← RocksIndexMap.deref (dsk k.1) it
      .ok (s.returnIterator (dsk k.1) it record)
  | .begin d => do
      let it ← RocksIndexMap.begin s.maps d
      let record ← RocksIndexMap.deref d.1 it
      .ok (s.returnIterator d it record)
  | .next i => do
      let x ← s.iterator i
      let it ← RocksIndexMap.next x.1 x.2
      let record ← RocksIndexMap.deref x.1 it
      .ok (s.moveIterator i x.1 it record)
  | .erase i => do
      let x ← s.iterator i
      let db ← RocksIndexMap.erase s.maps x.2
      .ok (s.answer db .void)
  | .clear d => .ok (s.answer (RocksIndexMap.clear s.maps d) .void)
  | .rollbackVersion d version => do
      let db ← RocksIndexMap.rollbackVersion s.maps d version
      .ok (s.answer db .void)

end RocksSystem

/-! ## BasicIndexMap gives the results of plain maps -/

/-- The iterator has not outlived a change of its index, and is not at its end. -/
def PlainSystem.Usable (s : PlainSystem Key) (i : Nat) : Prop :=
  s.iterators[i]?.any fun x => x.2.fresh && !x.2.rest.isEmpty

theorem PlainSystem.Usable.elim {s : PlainSystem Key} {i : Nat} (h : s.Usable i) :
    ∃ d e rest, s.iterators[i]? = some (d, ⟨e :: rest, true⟩) := by
  rw [PlainSystem.Usable, Option.any_eq_true] at h
  rcases h with ⟨⟨d, rest, fresh⟩, hx, h⟩
  rw [Bool.and_eq_true] at h
  rcases h with ⟨rfl, h⟩
  cases rest with
  | nil => cases h
  | cons e rest => exact ⟨d, e, rest, hx⟩

/-- The calls `BasicIndexMap` answers like a plain map. -/
def BasicUse (s : PlainSystem Key) : MapCall Key ds → Prop
  | .next i => s.Usable i
  | .erase i => s.Usable i
  | .rollbackVersion d _ => (s.maps.map d).entries = []
  | _ => True

instance (s : PlainSystem Key) (call : MapCall Key ds) : Decidable (BasicUse s call) := by
  unfold BasicUse PlainSystem.Usable
  split <;> infer_instance

/-- How an iterator of `BasicIndexMap` stands to one of the plain maps. -/
def BasicMatch (s : PlainMaps Key) (x : DataStoreKey × Cursor Key)
    (y : DataStoreKey × BasicIterator Key) : Prop :=
  y.1 = x.1 ∧ (x.2.fresh → y.2 = x.2.rest.head?.map Prod.fst ∧ x.2.rest <:+ (s.map x.1).entries)

structure BasicRel (s : PlainSystem Key) (b : BasicSystem Key) : Prop where
  maps : b.maps = s.maps.map
  iterators : List.Forall₂ (BasicMatch s.maps) s.iterators b.iterators
  results : b.results = s.results

namespace BasicRel

variable {s : PlainSystem Key} {b : BasicSystem Key}

/-- A change of an index leaves the iterators of the others alone. -/
theorem change (h : BasicRel s b) (d : DataStoreKey) (m : OrdMap Key Entry)
    (cleared : List DataStoreKey) (r : MapResult Key) :
    BasicRel (PlainSystem.change s d m cleared r) (b.answer (Function.update b.maps d m) r) := by
  constructor
  · rw [h.maps]
    rfl
  · refine forall₂_map_left_iff.mpr (h.iterators.imp ?_)
    rintro ⟨d', c⟩ y ⟨hd, hy⟩
    rw [PlainSystem.outdate]
    by_cases hdd : d' = d
    · rw [if_pos hdd]
      exact ⟨hd, fun hf => by cases hf⟩
    · rw [if_neg hdd]
      refine ⟨hd, fun hf => ⟨(hy hf).1, ?_⟩⟩
      change c.rest <:+ (Function.update s.maps.map d m d').entries
      rw [Function.update_of_ne hdd]
      exact (hy hf).2
  · rw [MapSystem.answer, PlainSystem.change, h.results]

theorem returnIterator (h : BasicRel s b) {d : DataStoreKey}
    (hrest : rest <:+ (s.maps.map d).entries) :
    BasicRel (s.returnIterator d ⟨rest, true⟩ rest.head?)
      (b.returnIterator d (rest.head?.map Prod.fst) rest.head?) := by
  constructor
  · exact h.maps
  · exact forall₂_concat h.iterators ⟨rfl, fun _ => ⟨rfl, hrest⟩⟩
  · rw [MapSystem.returnIterator, MapSystem.returnIterator, h.results]

end BasicRel

/-- A step of `BasicIndexMap` is a step of the plain maps. -/
theorem basicStep_simulates (s : PlainSystem Key) (b : BasicSystem Key) (call : MapCall Key ds)
    (h : BasicRel s b) (hok : BasicUse s call) :
    ∃ s' b', PlainSystem.step s call = .ok s' ∧ BasicSystem.step b call = .ok b' ∧
      BasicRel s' b' := by
  cases call with
  | insert k e =>
    simp only [PlainSystem.step, BasicSystem.step, BasicIndexMap.insert, h.maps]
    by_cases hk : ((s.maps.map (dsk k.1)).get k.1).isSome
    · simp only [hk, if_true, Function.update_eq_self]
      refine ⟨_, _, rfl, rfl, rfl, h.iterators, ?_⟩
      rw [MapSystem.answer, MapSystem.answer, h.results]
    · simp only [hk]
      exact ⟨_, _, rfl, rfl, h.maps ▸ h.change _ _ _ _⟩
  | update k e =>
    exact ⟨_, _, rfl, rfl, h.maps ▸ h.change _ _ _ _⟩
  | find k =>
    have hrest : (if ((s.maps.map (dsk k.1)).get k.1).isSome then
        (s.maps.map (dsk k.1)).seek k.1 else []) <:+ (s.maps.map (dsk k.1)).entries := by
      split
      · exact seek_suffix k.1
      · exact nil_suffix
    simp only [BasicSystem.step, h.maps, find_eq, deref_eq _ hrest]
    exact ⟨_, _, rfl, rfl, h.returnIterator hrest⟩
  | leastUpper k =>
    have hrest := seek_suffix (m := s.maps.map (dsk k.1)) k.1
    simp only [BasicSystem.step, h.maps, BasicIndexMap.leastUpper, deref_eq _ hrest]
    exact ⟨_, _, rfl, rfl, h.returnIterator hrest⟩
  | begin d =>
    have hrest := suffix_refl (s.maps.map d).entries
    simp only [BasicSystem.step, h.maps, BasicIndexMap.begin, deref_eq _ hrest]
    exact ⟨_, _, rfl, rfl, h.returnIterator hrest⟩
  | next i =>
    rcases PlainSystem.Usable.elim hok with ⟨d, e, rest, hi⟩
    rcases forall₂_getElem? h.iterators hi with ⟨⟨d', it⟩, hi', hd, hit⟩
    rcases hit rfl with ⟨rfl, hs⟩
    have hrest : rest <:+ (s.maps.map d).entries := (suffix_cons e rest).trans hs
    simp only at hd
    simp only [PlainSystem.step, BasicSystem.step, MapSystem.iterator, hi, hi', bind, Except.bind,
      head?_cons, Option.map_some, h.maps, hd, next_eq _ hs,
      deref_eq _ hrest]
    refine ⟨_, _, rfl, rfl, h.maps, ?_, ?_⟩
    · exact forall₂_set h.iterators ⟨rfl, fun _ => ⟨rfl, hrest⟩⟩ i
    · rw [MapSystem.moveIterator, MapSystem.moveIterator, h.results]
  | erase i =>
    rcases PlainSystem.Usable.elim hok with ⟨d, e, rest, hi⟩
    rcases forall₂_getElem? h.iterators hi with ⟨⟨d', it⟩, hi', hd, hit⟩
    rcases hit rfl with ⟨rfl, hs⟩
    simp only at hd
    simp only [PlainSystem.step, BasicSystem.step, MapSystem.iterator, hi, hi', bind, Except.bind,
      head?_cons, Option.map_some, h.maps, hd, BasicIndexMap.erase, get_of_suffix hs]
    exact ⟨_, _, rfl, rfl, h.maps ▸ h.change _ _ _ _⟩
  | clear d =>
    exact ⟨_, _, rfl, rfl, h.change _ _ _ _⟩
  | rollbackVersion d version =>
    have hnil : (s.maps.map d).entries = [] := hok
    have hfilter : (s.maps.map d).filter (fun k => decide (keyVersion k ≠ version)) =
        s.maps.map d := by
      apply OrdMap.ext_get
      intro k
      simp [OrdMap.get, OrdMap.filter, hnil]
    simp only [PlainSystem.step, BasicSystem.step, h.maps, rollbackVersion_of_nil _ hnil, hfilter]
    exact ⟨_, _, rfl, rfl, h.maps ▸ h.change _ _ _ _⟩

/-! ## RocksIndexMap gives the results of plain maps -/

variable (ds) in
/-- The index still has its marker, or an index behind it has a marker or a record. -/
def PlainSystem.Bounded (s : PlainSystem Key) (d : DataStoreKey) : Prop :=
  d ∉ s.maps.cleared ∨ ∃ d' ∈ ds, d < d' ∧ (d' ∉ s.maps.cleared ∨ (s.maps.map d').entries ≠ [])

/-- The calls `RocksIndexMap` answers like a plain map. -/
def RocksUse (s : PlainSystem Key) : MapCall Key ds → Prop
  | .next i => s.Usable i
  | .erase i => s.Usable i
  | .find k => s.Bounded ds (dsk k.1)
  | .leastUpper k => s.Bounded ds (dsk k.1)
  | .begin d => s.Bounded ds d
  | .rollbackVersion d _ => s.Bounded ds d
  | _ => True

instance (s : PlainSystem Key) (call : MapCall Key ds) : Decidable (RocksUse s call) := by
  unfold RocksUse PlainSystem.Usable PlainSystem.Bounded
  split <;> infer_instance

/-- How an iterator of `RocksIndexMap` stands to one of the plain maps. -/
def RocksMatch (ds : List DataStoreKey) (x : DataStoreKey × Cursor Key)
    (y : DataStoreKey × RocksIterator Key) : Prop :=
  y.1 = x.1 ∧ x.1 ∈ ds ∧ (x.2.fresh →
    RocksIndexMap.Points x.1 y.2 (x.2.rest.map (Prod.map id Entry.atRest)) ∧
      ∀ e ∈ x.2.rest, dsk e.1 = x.1)

structure RocksRel (ds : List DataStoreKey) (s : PlainSystem Key) (r : RocksSystem Key) :
    Prop where
  deletedIndexes : r.maps.deletedIndexes = []
  content : ∀ d ∈ ds, RocksIndexMap.content r.maps.store d = (s.maps.map d).map Entry.atRest
  marker : ∀ d ∈ ds, d ∉ s.maps.cleared → (r.maps.store.get (keyMax d)).isSome
  iterators : List.Forall₂ (RocksMatch ds) s.iterators r.iterators
  results : r.results = s.results.map MapResult.atRest

namespace RocksRel

variable {s : PlainSystem Key} {r : RocksSystem Key} {d : DataStoreKey}

/-- The records of an index have keys of the index. -/
theorem mem_map (h : RocksRel ds s r) (hd : d ∈ ds) {e : Key × Entry}
    (he : e ∈ (s.maps.map d).entries) : dsk e.1 = d ∧ e.1 ≠ keyMax d := by
  have hmem : Prod.map id Entry.atRest e ∈ (RocksIndexMap.content r.maps.store d).entries := by
    rw [h.content d hd]
    exact mem_map_of_mem he
  exact (mem_content.mp hmem).2

theorem get_store (h : RocksRel ds s r) {k : Key} (hk : dsk k ∈ ds ∧ k ≠ keyMax (dsk k)) :
    r.maps.store.get k = ((s.maps.map (dsk k)).get k).map Entry.atRest := by
  rw [← get_map, ← h.content _ hk.1, content_get rfl hk.2]

theorem closed (h : RocksRel ds s r) (hd : d ∈ ds) (hb : s.Bounded ds d) :
    RocksIndexMap.Closed r.maps.store d := by
  rcases hb with hb | ⟨d', hd', hlt, hb⟩
  · rcases Option.isSome_iff_exists.mp (h.marker d hd hb) with ⟨e, he⟩
    exact ⟨(keyMax d, e), mem_entries.mpr he, le_rfl⟩
  · have hle : ∀ k : Key, dsk k = d' → keyMax d ≤ k := fun k hk =>
      (lt_of_dsk_lt _ _ (by rwa [dsk_keyMax, hk])).le
    rcases hb with hb | hb
    · rcases Option.isSome_iff_exists.mp (h.marker d' hd' hb) with ⟨e, he⟩
      exact ⟨(keyMax d', e), mem_entries.mpr he, hle _ (dsk_keyMax d')⟩
    · rcases exists_mem_of_ne_nil _ hb with ⟨e, he⟩
      have hmem : Prod.map id Entry.atRest e ∈ (RocksIndexMap.content r.maps.store d').entries := by
        rw [h.content d' hd']
        exact mem_map_of_mem he
      rw [mem_content] at hmem
      exact ⟨_, hmem.1, hle _ hmem.2.1⟩

/-- A change of an index leaves the iterators of the others alone. -/
theorem change (h : RocksRel ds s r) (d : DataStoreKey) (m : OrdMap Key Entry)
    {cleared : List DataStoreKey} {db : RocksDb Key} {res res' : MapResult Key}
    (hdel : db.deletedIndexes = [])
    (hsame : d ∈ ds → RocksIndexMap.content db.store d = m.map Entry.atRest)
    (hother : ∀ d' ≠ d, RocksIndexMap.content db.store d' = RocksIndexMap.content r.maps.store d')
    (hmarker : ∀ d' ∈ ds, d' ∉ cleared → (db.store.get (keyMax d')).isSome)
    (hres : res' = res.atRest) :
    RocksRel ds (PlainSystem.change s d m cleared res) (r.answer db res') := by
  constructor
  · exact hdel
  · intro d' hd'
    change RocksIndexMap.content db.store d' = (Function.update s.maps.map d m d').map Entry.atRest
    by_cases hdd : d' = d
    · rw [hdd, Function.update_self]
      exact hsame (hdd ▸ hd')
    · rw [Function.update_of_ne hdd, hother d' hdd, h.content d' hd']
  · exact hmarker
  · refine forall₂_map_left_iff.mpr (h.iterators.imp ?_)
    rintro ⟨d', c⟩ y ⟨hd, hds, hy⟩
    rw [PlainSystem.outdate]
    by_cases hdd : d' = d
    · rw [if_pos hdd]
      exact ⟨hd, hds, fun hf => by cases hf⟩
    · rw [if_neg hdd]
      exact ⟨hd, hds, hy⟩
  · rw [MapSystem.answer, PlainSystem.change, h.results, hres, map_append]
    rfl

/-- A new iterator. -/
theorem returnIterator (h : RocksRel ds s r) (hd : d ∈ ds)
    (hrest : rest <:+ (s.maps.map d).entries) {it : RocksIterator Key}
    (hp : RocksIndexMap.Points d it (rest.map (Prod.map id Entry.atRest))) :
    RocksRel ds (s.returnIterator d ⟨rest, true⟩ rest.head?)
      (r.returnIterator d it (rest.map (Prod.map id Entry.atRest)).head?) := by
  constructor
  · exact h.deletedIndexes
  · exact h.content
  · exact h.marker
  · exact forall₂_concat h.iterators
      ⟨rfl, hd, fun _ => ⟨hp, fun e he => (h.mem_map hd (hrest.mem he)).1⟩⟩
  · rw [MapSystem.returnIterator, MapSystem.returnIterator, h.results, map_append, head?_map]
    rfl

end RocksRel

theorem insert_content {s : PlainSystem Key} {r : RocksSystem Key} (h : RocksRel ds s r)
    (k : RecordKey Key ds) (e : Entry) {res res' : MapResult Key} (hres : res' = res.atRest) :
    RocksRel ds
      (PlainSystem.change s (dsk k.1) ((s.maps.map (dsk k.1)).insert k.1 e) s.maps.cleared res)
      (r.answer { r.maps with store := r.maps.store.insert k.1 e.atRest } res') := by
  refine h.change _ _ h.deletedIndexes ?_ ?_ ?_ hres
  · intro hd
    rw [map_insert, ← h.content _ hd, RocksIndexMap.content, RocksIndexMap.content,
      filter_insert_of_pos (by simpa using k.2.2)]
  · intro d' hd'
    rw [RocksIndexMap.content, RocksIndexMap.content, filter_insert_of_neg (by simp [hd'.symm])]
  · intro d' hd' hc
    rw [get_insert]
    split
    · rfl
    · exact h.marker d' hd' hc

/-- A step of `RocksIndexMap` is a step of the plain maps. -/
theorem rocksStep_simulates (hz : DataStoreKey.zero ∉ ds) (s : PlainSystem Key)
    (r : RocksSystem Key) (call : MapCall Key ds) (h : RocksRel ds s r) (hok : RocksUse s call) :
    ∃ s' r', PlainSystem.step s call = .ok s' ∧ RocksSystem.step r call = .ok r' ∧
      RocksRel ds s' r' := by
  have hne : ∀ d ∈ ds, d ≠ DataStoreKey.zero := fun d hd hd0 => hz (hd0 ▸ hd)
  cases call with
  | insert k e =>
    simp only [PlainSystem.step, RocksSystem.step, RocksIndexMap.insert, h.get_store k.2]
    cases hk : (s.maps.map (dsk k.1)).get k.1 with
    | some x =>
      refine ⟨_, _, rfl, rfl, h.deletedIndexes, h.content, h.marker, h.iterators, ?_⟩
      rw [MapSystem.answer, MapSystem.answer, h.results, map_append]
      rfl
    | none => exact ⟨_, _, rfl, rfl, insert_content h k e rfl⟩
  | update k e =>
    simp only [RocksSystem.step, RocksIndexMap.update, h.get_store k.2]
    refine ⟨_, _, rfl, rfl, insert_content h k e ?_⟩
    cases (s.maps.map (dsk k.1)).get k.1 <;> rfl
  | find k =>
    rcases find_points (h.closed k.2.1 hok) rfl k.2.2 with ⟨it, hit, hp⟩
    have hrest : (if ((s.maps.map (dsk k.1)).get k.1).isSome then
        (s.maps.map (dsk k.1)).seek k.1 else []) <:+ (s.maps.map (dsk k.1)).entries := by
      split
      · exact seek_suffix k.1
      · exact nil_suffix
    rw [h.content _ k.2.1, get_map, Option.isSome_map, seek_map, ← map_nil, ← apply_ite] at hp
    simp only [RocksSystem.step, hit, bind, Except.bind, hp.deref]
    exact ⟨_, _, rfl, rfl, h.returnIterator k.2.1 hrest hp⟩
  | leastUpper k =>
    rcases leastUpper_points (h.closed k.2.1 hok) rfl with ⟨it, hit, hp⟩
    rw [h.content _ k.2.1, seek_map] at hp
    simp only [RocksSystem.step, hit, bind, Except.bind, hp.deref]
    exact ⟨_, _, rfl, rfl, h.returnIterator k.2.1 (seek_suffix k.1) hp⟩
  | begin d =>
    rcases begin_points (hne d.1 d.2) (h.closed d.2 hok) with ⟨it, hit, hp⟩
    rw [h.content _ d.2] at hp
    simp only [RocksSystem.step, hit, bind, Except.bind, hp.deref]
    exact ⟨_, _, rfl, rfl, h.returnIterator d.2 (suffix_refl _) hp⟩
  | next i =>
    rcases PlainSystem.Usable.elim hok with ⟨d, e, rest, hi⟩
    rcases forall₂_getElem? h.iterators hi with ⟨⟨d', it⟩, hi', hd, hds, hit⟩
    rcases hit rfl with ⟨hp, hkeys⟩
    rcases next_points hp with ⟨it', hit', hp'⟩
    simp only at hd
    simp only [PlainSystem.step, RocksSystem.step, MapSystem.iterator, hi, hi', bind,
      Except.bind, hd, hit', hp'.deref]
    have hmatch : RocksMatch ds (d, ⟨rest, true⟩) (d, it') :=
      ⟨rfl, hds, fun _ => ⟨hp', fun x hx => hkeys x (mem_cons_of_mem e hx)⟩⟩
    refine ⟨_, _, rfl, rfl, h.deletedIndexes, h.content, h.marker, ?_, ?_⟩
    · exact forall₂_set h.iterators hmatch i
    · rw [MapSystem.moveIterator, MapSystem.moveIterator, h.results, map_append,
        map_cons, tail_cons, head?_map]
      rfl
  | erase i =>
    rcases PlainSystem.Usable.elim hok with ⟨d, e, rest, hi⟩
    rcases forall₂_getElem? h.iterators hi with ⟨⟨d', it⟩, hi', hd, hds, hit⟩
    rcases hit rfl with ⟨⟨hlt, x, behind, rfl, -⟩, hkeys⟩
    have hek : dsk e.1 = d := hkeys e mem_cons_self
    have helt : e.1 < keyMax d := hlt (Prod.map id Entry.atRest e) mem_cons_self
    simp only [PlainSystem.step, RocksSystem.step, MapSystem.iterator, hi, hi', bind]
    refine ⟨_, _, rfl, rfl, h.change _ _ h.deletedIndexes ?_ ?_ ?_ rfl⟩
    · intro _
      rw [OrdMap.map_erase, ← h.content d hds]
      exact content_erase e.1
    · intro d' hd'
      refine content_filter_of_ne fun k hk => ?_
      simpa using fun hke : k = e.1 => hd' (hk.symm.trans ((congrArg dsk hke).trans hek))
    · intro d' hd' hc
      have hmax : keyMax d' ≠ e.1 := by
        intro heq
        have hdd : d' = d := by rw [← hek, ← heq, dsk_keyMax]
        exact helt.ne (hdd ▸ heq.symm)
      rw [show (r.maps.store.erase (Prod.map id Entry.atRest e).1).get (keyMax d') =
        r.maps.store.get (keyMax d') from (get_erase _).trans (if_neg hmax)]
      exact h.marker d' hd' hc
  | clear d =>
    simp only [RocksSystem.step, clear_eq (hne d.1 d.2) h.deletedIndexes]
    refine ⟨_, _, rfl, rfl, h.change _ _ rfl ?_ ?_ ?_ rfl⟩
    · intro _
      apply OrdMap.ext_get
      intro k
      rw [get_map, RocksIndexMap.content, get_filter, get_filter]
      by_cases hk : dsk k = d.1 <;> simp [hk]
    · intro d' hd'
      exact content_filter_of_ne fun k hk => by simpa [hk] using hd'
    · intro d' hd' hc
      rw [mem_cons, not_or] at hc
      rw [get_filter, if_pos (by simpa using hc.1)]
      exact h.marker d' hd' hc.2
  | rollbackVersion d version =>
    simp only [RocksSystem.step, rollbackVersion_eq (hne d.1 d.2) (h.closed d.2 hok), bind]
    refine ⟨_, _, rfl, rfl, h.change _ _ h.deletedIndexes ?_ ?_ ?_ rfl⟩
    · intro _
      rw [OrdMap.map_filter, ← h.content _ d.2]
      apply OrdMap.ext_get
      intro k
      rw [RocksIndexMap.content, RocksIndexMap.content, get_filter, get_filter,
        get_filter, get_filter]
      by_cases hk : dsk k = d.1 ∧ k ≠ keyMax d.1
      · simp [hk.1, hk.2]
      · simp [hk]
    · intro d' hd'
      exact content_filter_of_ne fun k hk => by simp [hk, hd']
    · intro d' hd' hc
      rw [get_filter, if_pos (by
        simp only [dsk_keyMax, decide_eq_true_iff]
        rintro ⟨hdd, hmax, -⟩
        exact hmax (congrArg keyMax hdd))]
      exact h.marker d' hd' hc

/-! ## Runs -/

def PlainSystem.init : PlainSystem Key :=
  ⟨⟨fun _ => OrdMap.empty, []⟩, [], []⟩

def BasicSystem.init : BasicSystem Key :=
  ⟨fun _ => OrdMap.empty, [], []⟩

variable (ds)

/-- All indexes are constructed on an empty database. -/
def RocksSystem.init (marker : DataStoreKey → Entry) : RocksSystem Key :=
  ⟨ds.foldl (fun db d => RocksIndexMap.construct db d (marker d)) ⟨OrdMap.empty, []⟩, [], []⟩

theorem foldl_construct (marker : DataStoreKey → Entry) (db : RocksDb Key) (k : Key) :
    ((ds.foldl (fun db d => RocksIndexMap.construct db d (marker d)) db).store.get k).isSome ↔
      (db.store.get k).isSome ∨ ∃ d ∈ ds, k = keyMax d := by
  induction ds generalizing db with
  | nil => simp
  | cons d ds ih =>
    rw [foldl_cons, ih, RocksIndexMap.construct, get_insert]
    by_cases hk : k = keyMax d
    · simp [hk]
    · simp [hk]

theorem foldl_construct_deletedIndexes (marker : DataStoreKey → Entry) (db : RocksDb Key) :
    (ds.foldl (fun db d => RocksIndexMap.construct db d (marker d)) db).deletedIndexes =
      db.deletedIndexes := by
  induction ds generalizing db with
  | nil => rfl
  | cons d ds ih => rw [foldl_cons, ih, RocksIndexMap.construct]

theorem RocksRel.init (marker : DataStoreKey → Entry) :
    RocksRel ds (PlainSystem.init : PlainSystem Key) (RocksSystem.init ds marker) := by
  constructor
  · exact foldl_construct_deletedIndexes ds marker _
  · intro d _
    apply OrdMap.ext_get
    intro k
    rw [RocksIndexMap.content, get_filter]
    by_cases hk : dsk k = d ∧ k ≠ keyMax d
    · have hnone : ¬((RocksSystem.init ds marker).maps.store.get k).isSome := by
        rw [RocksSystem.init, foldl_construct]
        rintro (hk' | ⟨d', -, rfl⟩)
        · cases hk'
        · rw [dsk_keyMax] at hk
          exact hk.2 (congrArg keyMax hk.1)
      rw [if_pos (decide_eq_true hk), Option.not_isSome_iff_eq_none.mp hnone]
      rfl
    · rw [if_neg (by simpa using hk)]
      rfl
  · intro d hd _
    rw [RocksSystem.init, foldl_construct]
    exact .inr ⟨d, hd, rfl⟩
  · exact List.Forall₂.nil
  · rfl

variable {ds}

/-- Both index maps give the results of plain ordered maps: `BasicIndexMap` if no
index with records is rolled back, `RocksIndexMap` if a key behind the index is
left when it is searched, and both if no iterator is used at its end or after its
index has changed. -/
theorem indexMaps_agree (hz : DataStoreKey.zero ∉ ds) (marker : DataStoreKey → Entry)
    (calls : List (MapCall Key ds)) :
    (Along PlainSystem.step BasicUse PlainSystem.init calls →
      ∃ s b, runM PlainSystem.step PlainSystem.init calls = .ok s ∧
        runM BasicSystem.step BasicSystem.init calls = .ok b ∧
        b.results = s.results ∧ b.maps = s.maps.map) ∧
    (Along PlainSystem.step RocksUse PlainSystem.init calls →
      ∃ s r, runM PlainSystem.step PlainSystem.init calls = .ok s ∧
        runM RocksSystem.step (RocksSystem.init ds marker) calls = .ok r ∧
        r.results = s.results.map MapResult.atRest ∧
        ∀ d ∈ ds, RocksIndexMap.content r.maps.store d = (s.maps.map d).map Entry.atRest) := by
  constructor
  · intro hok
    have hinit : BasicRel (PlainSystem.init : PlainSystem Key) BasicSystem.init :=
      ⟨rfl, List.Forall₂.nil, rfl⟩
    rcases runM_simulates basicStep_simulates hinit hok with ⟨s, b, hs, hb, h⟩
    exact ⟨s, b, hs, hb, h.results, h.maps⟩
  · intro hok
    rcases runM_simulates (rocksStep_simulates hz) (RocksRel.init ds marker) hok with
      ⟨s, r, hs, hr, h⟩
    exact ⟨s, r, hs, hr, h.results, h.content⟩

/-- A record at the coordinate `c` of version `v`. -/
def sampleKey (c : Int) (v : Nat) : DbKey :=
  ⟨⟨1, 1⟩, 0, v, [c], fun h => by cases h⟩

def sampleEntry : Entry :=
  ⟨{ key := ⟨⟨1, 1⟩, 4096, 10, 10, 4096⟩ }, ⟨0, 1, 1⟩⟩

def sampleCalls : List (MapCall DbKey [⟨1, 1⟩]) :=
  [.insert ⟨sampleKey 0 1, by decide⟩ sampleEntry, .insert ⟨sampleKey 5 2, by decide⟩ sampleEntry,
    .begin ⟨⟨1, 1⟩, by decide⟩, .next 0, .erase 0]

/-- Two records, an iteration and an erased record. -/
theorem indexMaps_agree_sample :
    (∃ s b, runM PlainSystem.step PlainSystem.init sampleCalls = .ok s ∧
        runM BasicSystem.step BasicSystem.init sampleCalls = .ok b ∧
        b.results = s.results ∧ b.maps = s.maps.map) ∧
    (∃ s r, runM PlainSystem.step PlainSystem.init sampleCalls = .ok s ∧
        runM RocksSystem.step (RocksSystem.init [⟨1, 1⟩] fun _ => sampleEntry) sampleCalls = .ok r ∧
        r.results = s.results.map MapResult.atRest ∧
        ∀ d ∈ [(⟨1, 1⟩ : DataStoreKey)],
          RocksIndexMap.content r.maps.store d = (s.maps.map d).map Entry.atRest) := by
  have h := indexMaps_agree (by decide) (fun _ => sampleEntry) sampleCalls
  exact ⟨h.1 (by decide +kernel), h.2 (by decide +kernel)⟩

/-- The version 2 of two records is rolled back: `BasicIndexMap` reads the key of
`end()`, `RocksIndexMap` removes the record of that version. -/
theorem rollbackVersion_differs :
    let calls : List (MapCall DbKey [⟨1, 1⟩]) :=
      [.insert ⟨sampleKey 0 1, by decide⟩ sampleEntry,
        .insert ⟨sampleKey 5 2, by decide⟩ sampleEntry, .rollbackVersion ⟨⟨1, 1⟩, by decide⟩ 2]
    runM BasicSystem.step BasicSystem.init calls = .error .badIterator ∧
      ∃ r, runM RocksSystem.step (RocksSystem.init [⟨1, 1⟩] fun _ => sampleEntry) calls = .ok r ∧
        r.maps.store.entries.map Prod.fst = [sampleKey 0 1, DbKey.keyMax ⟨1, 1⟩] :=
  ⟨rfl, _, rfl, by decide +kernel⟩

end SciDB.Index
