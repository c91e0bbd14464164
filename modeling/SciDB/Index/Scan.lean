import SciDB.Distribution.Positions
import SciDB.Index.Versions

/-!
# Scanning one version of a stored array

`DBArrayIterator` (`src/array/DBArray.cpp`) visits the chunks of one attribute that
one version of the array sees.  It walks the shared index, in which the entries of
the attribute are ordered by coordinates and, for one chunk, from the newest version
to the oldest, and passes entries that are too new, older ones of a chunk it has
seen, tombstones, and chunks another instance serves.

Main results:

- Theorem {lit}`mem_visibleFrom`: the walk over the entries meets what the version sees.
- Theorem {lit}`scan_eq`: `restart` and `operator++` visit these chunks in row-major order.
- Theorem {lit}`setPosition_eq`: `setPosition` finds exactly these chunks.
-/

namespace SciDB.Index

open OrderedMap KeyMeta SciDB.Distribution List OrdMap Option
open RocksIndexMap (content mem_content Points next_points seek_points)
open RocksIndexMap (isEnd leastUpper)

/-! ## The iterator -/

/-- What can go wrong in a scan. -/
inductive ScanFault
  | index (fault : IndexFault)
  /-- the loops of `findNextLogicalChunk` did not end in the rounds given -/
  | endless
deriving DecidableEq, Repr

/-- A stored version of an array on one instance, with its index. -/
structure DBArray where
  /-- the id of this version -/
  id : Nat
  attrs : Attributes
  dims : List DimensionDesc
  dims_ne_nil : dims ≠ []
  dsk : DataStoreKey
  /-- `supportingEncodedEBM()` -/
  renumber : Bool
  db : RocksDb DbKey
  /-- `ReplicationManager::isResponsibleFor`, of an address and its primary instance -/
  isResponsibleFor : PersistentAddress → Nat → Bool

/-- The parts of a `CachedDBChunk` that the iterator sets. -/
structure CachedDBChunk where
  addr : PersistentAddress
  size : Nat
  auxMeta : ChunkAuxMeta
deriving DecidableEq, Repr

structure DBArrayIterator where
  addr : PersistentAddress
  curr : RocksIterator DbKey
  currBitmap : RocksIterator DbKey
  currChunk : Option CachedDBChunk
  currBitmapChunk : Option CachedDBChunk
  positioned : Bool

namespace DBArrayIterator

variable (a : DBArray)

/-- Lift the result of a call of the index. -/
def lift {α : Type} (x : Except MapFault α) : Except ScanFault α :=
  x.mapError fun f => .index (.map f)

theorem lift_ok {α : Type} {x : Except MapFault α} {y : α} (h : x = .ok y) : lift x = .ok y := by
  rw [h, lift, Except.mapError]

/-- `getKey`, `getBufHandle`, `getAuxMeta` and `valueSize` of an index iterator, which
may stand on the marker. -/
def record : RocksIterator DbKey → Except ScanFault (DbKey × Entry)
  | [] => .error (.index (.map .notValid))
  | e :: _ => .ok e

/-- `keyToAddress` of the key an index iterator stands on. -/
def addressAt (it : RocksIterator DbKey) : Except ScanFault PersistentAddress := do
  let e ← record it
  (keyToAddress e.1 a.attrs.getEmptyBitmapAttribute).mapError .index

/-- The lower bounds of the dimensions. -/
def startMin : List Int :=
  a.dims.map DimensionDesc.startMin

/-- The constructor, for the attribute with an id. -/
def construct (attId : Nat) : DBArrayIterator where
  addr := ⟨attId, startMin a, a.id⟩
  curr := []
  currBitmap := []
  currChunk := none
  currBitmapChunk := none
  positioned := false

variable (s : DBArrayIterator)

/-- `resetChunkRefs` -/
def resetChunkRefs : DBArrayIterator :=
  { s with positioned := false, currChunk := none, currBitmapChunk := none }

/-- The iterator on the chunk of an entry.  `makeChunk` gives the bitmap a chunk of its
own, unless it is the attribute scanned. -/
def onChunk (found : PersistentAddress) (e : Entry) :
    Except ScanFault DBArrayIterator :=
  let s := { s with addr := found, currChunk := some ⟨found, e.value.key.size, e.auxMeta⟩ }
  match a.attrs.getEmptyBitmapAttribute with
  | none => .ok s
  | some bitmapAttr =>
    if bitmapAttr.id = found.attId then .ok s
    else do
      let b ← record s.currBitmap
      let bitmapAddr := { found with attId := bitmapAttr.id }
      .ok { s with currBitmapChunk := some ⟨bitmapAddr, b.2.value.key.size, b.2.auxMeta⟩ }

/-- `setCurrent` -/
def setCurrent : Except ScanFault DBArrayIterator := do
  let reset := { resetChunkRefs s with positioned := true }
  if ← lift (isEnd a.dsk s.curr) then .ok reset
  else
    let e ← record s.curr
    let found ← addressAt a s.curr
    if found.attId = s.addr.attId then onChunk a reset found e.2 else .ok reset

/-- `advanceIters`: the moved iterators, `nextAddr`, and whether the attribute ended. -/
def advanceIters (nextAddr oldAddr : PersistentAddress) :
    Except ScanFault (DBArrayIterator × PersistentAddress × Bool) := do
  let curr ← lift (RocksIndexMap.next a.dsk s.curr)
  let currBitmap ← (if a.attrs.getEmptyBitmapAttribute.isSome then
    lift (RocksIndexMap.next a.dsk s.currBitmap) else .ok s.currBitmap)
  let isEnd ← lift (isEnd a.dsk curr)
  let nextAddr ← (if isEnd then .ok nextAddr else addressAt a curr)
  .ok ({ s with curr := curr, currBitmap := currBitmap }, nextAddr,
    isEnd || decide (nextAddr.attId ≠ oldAddr.attId))

/-- The inner loop of `findNextLogicalChunk`. -/
def skipLoop (targetVersion : Nat) (currAddr : PersistentAddress) :
    Nat → DBArrayIterator → PersistentAddress →
      Except ScanFault (DBArrayIterator × PersistentAddress × Bool)
  | 0, _, _ => .error .endless
  | rounds + 1, s, nextAddr => do
      let (s, nextAddr, done) ← advanceIters a s nextAddr currAddr
      if !done && (decide (nextAddr.coords = currAddr.coords) ||
          decide (nextAddr.arrVerId > targetVersion)) then
        skipLoop targetVersion currAddr rounds s nextAddr
      else .ok (s, nextAddr, done)

/-- The outer loop of `findNextLogicalChunk`. -/
def findLoop (targetVersion : Nat) :
    Nat → DBArrayIterator → PersistentAddress → PersistentAddress →
      Except ScanFault (DBArrayIterator × PersistentAddress)
  | 0, _, _, _ => .error .endless
  | rounds + 1, s, nextAddr, currAddr => do
      let (s, nextAddr, done) ← skipLoop a targetVersion currAddr (s.curr.length + 1) s nextAddr
      if done then .ok (s, currAddr)
      else
        let currAddr := nextAddr
        let e ← record s.curr
        if e.2.value.isNull || !a.isResponsibleFor currAddr e.2.auxMeta.primaryInstanceId then
          findLoop targetVersion rounds s nextAddr currAddr
        else .ok (s, currAddr)

/-- `findNextLogicalChunk`; `own` tells that `currAddr` is the address of the iterator,
which the loop then changes. -/
def findNextLogicalChunk (currAddr : PersistentAddress) (own : Bool) (targetVersion : Nat) :
    Except ScanFault DBArrayIterator := do
  let (s, currAddr) ← findLoop a targetVersion (s.curr.length + 1) s { } currAddr
  setCurrent a (if own then { s with addr := currAddr } else s)

/-- The part of `restart` behind the searches: whether the entry found is the one
wanted. -/
def settle : Except ScanFault DBArrayIterator := do
  if ← lift (isEnd a.dsk s.curr) then setCurrent a s
  else
    let foundAddr ← addressAt a s.curr
    if foundAddr.attId ≠ s.addr.attId then setCurrent a s
    else if foundAddr.arrVerId > a.id then findNextLogicalChunk a s s.addr true a.id
    else
      let e ← record s.curr
      -- it may be a replica or a tombstone
      if !a.isResponsibleFor foundAddr e.2.auxMeta.primaryInstanceId || e.2.value.isNull then
        findNextLogicalChunk a s foundAddr false a.id
      else setCurrent a s

/-- The searches in the index for an attribute and for the empty bitmap. -/
def search (attr : AttributeDesc) (coords : List Int) (hne : coords ≠ []) :
    Except ScanFault DBArrayIterator := do
  let curr ← lift (leastUpper a.db (fillKey a.renumber a.dsk attr coords hne a.id))
  let currBitmap ← (match a.attrs.getEmptyBitmapAttribute with
    | some ebm => lift (leastUpper a.db
      (fillKey a.renumber a.dsk ebm coords hne a.id))
    | none => .ok s.currBitmap)
  .ok { s with curr := curr, currBitmap := currBitmap }

theorem startMin_ne_nil : startMin a ≠ [] := by
  simpa [startMin] using a.dims_ne_nil

/-- `restart`; `attr` is the attribute of the iterator. -/
def restart (attr : AttributeDesc) : Except ScanFault DBArrayIterator := do
  let s := { s with addr := { s.addr with coords := startMin a, arrVerId := a.id } }
  let s ← search a s attr (startMin a) (startMin_ne_nil a)
  settle a s

/-- `operator++`; an iterator that is not positioned restarts first. -/
def next (attr : AttributeDesc) : Except ScanFault DBArrayIterator := do
  let s ← (if s.positioned then .ok s else restart a s attr)
  findNextLogicalChunk a s s.addr true a.id

/-- A scan from where the iterator stands: the chunk and the entry at each stop, until
`end()`. -/
def scan (attr : AttributeDesc) :
    Nat → DBArrayIterator → Except ScanFault (List (CachedDBChunk × (DbKey × Entry)))
  | 0, _ => .error .endless
  | rounds + 1, s =>
    match s.currChunk with
    | none => .ok []
    | some chunk => do
        let e ← record s.curr
        let s ← next a s attr
        let rest ← scan attr rounds s
        .ok ((chunk, e) :: rest)

theorem getChunkPositionFor_ne_nil {pos : List Int} (hpos : pos.length = a.dims.length) :
    getChunkPositionFor a.dims pos ≠ [] := by
  have hdims := length_pos_iff.mpr a.dims_ne_nil
  apply ne_nil_of_length_pos
  rw [getChunkPositionFor, length_zipWith]
  omega

/-- The condition of `setPosition`: the position exists iff it is not a tombstone, not
a replica chunk, and has the correct coordinates. -/
def positionExists (coords : List Int) (e : Entry) (nextAddr : PersistentAddress) : Bool :=
  let sameCoords := if nextAddr.coords.length ≠ 0 then decide (nextAddr.coords = coords) else false
  !e.value.isNull && sameCoords && a.isResponsibleFor nextAddr e.auxMeta.primaryInstanceId

/-- `setPosition` -/
def setPosition (attr : AttributeDesc) (pos : List Int) (hpos : pos.length = a.dims.length) :
    Except ScanFault (DBArrayIterator × Bool) := do
  let coords := getChunkPositionFor a.dims pos
  let s ← search a s attr coords (getChunkPositionFor_ne_nil a hpos)
  let e ← record s.curr
  let nextAddr ← addressAt a s.curr
  let s ← (if positionExists a coords e.2 nextAddr then setCurrent a s else .ok (resetChunkRefs s))
  .ok (s, s.currChunk.isSome)

end DBArrayIterator

/-! ## The walk over the entries -/

section Walk

variable (attId v : Nat) (serves : DbKey × Entry → Bool)

/-- The entries a walk stops at.  It leaves at the next attribute, passes entries of
the chunk it was at last and those that are too new, and from another entry on is at
that chunk. -/
def visibleFrom : Option (List Int) → List (DbKey × Entry) → List (DbKey × Entry)
  | _, [] => []
  | last, e :: l =>
    if e.1.attId ≠ attId then []
    else if last = some e.1.coords ∨ v < e.1.arrVerId then visibleFrom last l
    else if serves e then e :: visibleFrom (some e.1.coords) l
    else visibleFrom (some e.1.coords) l

/-- The entries from the next stop on. -/
def landing : List Int → List (DbKey × Entry) → List (DbKey × Entry)
  | _, [] => []
  | last, e :: l =>
    if e.1.attId ≠ attId then e :: l
    else if e.1.coords = last ∨ v < e.1.arrVerId then landing last l
    else if serves e then e :: l
    else landing e.1.coords l

/-- The stops from one on. -/
def visibleAt : List (DbKey × Entry) → List (DbKey × Entry)
  | [] => []
  | e :: l =>
    if e.1.attId = attId then e :: visibleFrom attId v serves (some e.1.coords) l else []

variable {attId v} {serves}

theorem visibleFrom_landing (last : List Int) (l : List (DbKey × Entry)) :
    visibleFrom attId v serves (some last) l =
      visibleAt attId v serves (landing attId v serves last l) := by
  induction l generalizing last with
  | nil => rfl
  | cons e l ih =>
    rw [visibleFrom, landing]
    by_cases ha : e.1.attId = attId
    · by_cases hskip : e.1.coords = last ∨ v < e.1.arrVerId
      · rw [if_neg (not_not.mpr ha), if_neg (not_not.mpr ha), if_pos hskip, if_pos, ih]
        simpa [eq_comm] using hskip
      · rw [if_neg (not_not.mpr ha), if_neg (not_not.mpr ha), if_neg hskip, if_neg]
        · by_cases hs : serves e = true
          · rw [if_pos hs, if_pos hs, visibleAt, if_pos ha]
          · rw [if_neg hs, if_neg hs, ih]
        · simpa [eq_comm] using hskip
    · rw [if_pos ha, if_pos ha, visibleAt, if_neg ha]

/-- The entries the inner loop of the search passes. -/
def passes (attId v : Nat) (last : List Int) (e : DbKey × Entry) : Bool :=
  decide (e.1.attId = attId) && (decide (e.1.coords = last) || decide (v < e.1.arrVerId))

/-- The next stop, by the entries the inner loop passes. -/
theorem landing_eq (last : List Int) (l : List (DbKey × Entry)) :
    landing attId v serves last l =
      match l.dropWhile (passes attId v last) with
      | [] => []
      | y :: m =>
        if y.1.attId ≠ attId then y :: m
        else if serves y then y :: m
        else landing attId v serves y.1.coords m := by
  induction l with
  | nil => rfl
  | cons e l ih =>
    rw [landing]
    by_cases hp : passes attId v last e = true
    · rw [dropWhile_cons_of_pos hp, ← ih]
      rw [passes, Bool.and_eq_true, Bool.or_eq_true, decide_eq_true_iff, decide_eq_true_iff,
        decide_eq_true_iff] at hp
      rw [if_neg (not_not.mpr hp.1), if_pos hp.2]
    · rw [dropWhile_cons_of_neg hp]
      rw [passes, Bool.and_eq_true, Bool.or_eq_true, decide_eq_true_iff, decide_eq_true_iff,
        decide_eq_true_iff] at hp
      by_cases ha : e.1.attId = attId
      · rw [if_neg (not_not.mpr ha), if_neg fun h => hp ⟨ha, h⟩]
        simp [ha]
      · simp [ha]

theorem landing_suffix (last : List Int) (l : List (DbKey × Entry)) :
    landing attId v serves last l <:+ l := by
  induction l generalizing last with
  | nil => exact suffix_refl _
  | cons e l ih =>
    rw [landing]
    split
    · exact suffix_refl _
    · split
      · exact (ih last).trans (suffix_cons e l)
      · split
        · exact suffix_refl _
        · exact (ih e.1.coords).trans (suffix_cons e l)

variable {l : List (DbKey × Entry)} {d : DataStoreKey} {last : Option (List Int)} {n : Nat}

/-- A chunk that does not come need not be passed. -/
theorem visibleFrom_some {last : List Int} (h : ∀ e ∈ l, e.1.attId = attId → e.1.coords ≠ last) :
    visibleFrom attId v serves (some last) l = visibleFrom attId v serves none l := by
  induction l with
  | nil => rfl
  | cons e l ih =>
    rw [visibleFrom, visibleFrom]
    by_cases ha : e.1.attId = attId
    · have hne := h e mem_cons_self ha
      have hiff : (some last = some e.1.coords ∨ v < e.1.arrVerId) ↔
          ((none : Option (List Int)) = some e.1.coords ∨ v < e.1.arrVerId) := by
        simp [hne.symm]
      rw [ih fun x hx => h x (mem_cons_of_mem e hx)]
      simp only [hiff]
    · rw [if_pos ha, if_pos ha]

theorem visibleFrom_sublist (last : Option (List Int)) (l : List (DbKey × Entry)) :
    (visibleFrom attId v serves last l).Sublist l := by
  induction l generalizing last with
  | nil => exact List.Sublist.slnil
  | cons e l ih =>
    rw [visibleFrom]
    split
    · exact nil_sublist _
    · split
      · exact (ih last).cons e
      · split
        · exact (ih _).cons_cons e
        · exact (ih _).cons e

/-- A version sees the first entry of a chunk that is not too new for it. -/
theorem isNewest_cons {e₀ e : DbKey × Entry} {coords : List Int}
    (holder : ∀ x ∈ l, SameChunk e₀.1 x.1 → x.1.arrVerId < e₀.1.arrVerId) :
    IsNewest (e₀ :: l) attId coords v e ↔
      if e₀.1.attId = attId ∧ e₀.1.coords = coords ∧ e₀.1.arrVerId ≤ v then e = e₀
      else IsNewest l attId coords v e := by
  split
  · rename_i h₀
    constructor
    · intro h
      refine (mem_cons.mp h.mem).resolve_right fun hmem => ?_
      have hlt := holder e hmem ⟨h₀.1.trans h.attId_eq.symm, h₀.2.1.trans h.coords_eq.symm⟩
      exact hlt.not_ge (h.newest e₀ mem_cons_self h₀.1 h₀.2.1 h₀.2.2)
    · rintro rfl
      refine ⟨mem_cons_self, h₀.1, h₀.2.1, h₀.2.2, ?_⟩
      intro x hx ha hco _
      rcases mem_cons.mp hx with rfl | hx
      · exact le_rfl
      · exact (holder x hx ⟨h₀.1.trans ha.symm, h₀.2.1.trans hco.symm⟩).le
  · rename_i h₀
    apply Iff.symm
    apply isNewest_congr (subset_cons_self e₀ l)
    intro x hx
    refine (mem_cons.mp hx.mem).resolve_left ?_
    rintro rfl
    exact h₀ ⟨hx.attId_eq, hx.coords_eq, hx.le⟩

/-- The walk over the entries of an index that are not before the attribute stops at
those the version sees, unless they are of the chunk it starts at. -/
theorem mem_visibleFrom (hsorted : Sorted l)
    (hkey : ∀ e ∈ l, e.1.dsk = d ∧ e.1.coords.length = n ∧ attId ≤ e.1.attId)
    (hlast : ∀ c ∈ last, ∀ e ∈ l, e.1.attId = attId → c ≤ e.1.coords) (e : DbKey × Entry) :
    e ∈ visibleFrom attId v serves last l ↔
      IsNewest l attId e.1.coords v e ∧ last ≠ some e.1.coords ∧ serves e := by
  induction l generalizing last with
  | nil =>
    constructor
    · intro h
      cases h
    · intro h
      cases h.1.mem
  | cons e₀ l ih =>
    rw [Sorted, pairwise_cons] at hsorted
    have hkey₀ := hkey e₀ mem_cons_self
    have hkeyl : ∀ x ∈ l, x.1.dsk = d ∧ x.1.coords.length = n ∧ attId ≤ x.1.attId :=
      fun x hx => hkey x (mem_cons_of_mem e₀ hx)
    have horder : ∀ x ∈ l, e₀.1.attId < x.1.attId ∨
        e₀.1.attId = x.1.attId ∧ e₀.1.coords ≤ x.1.coords := fun x hx =>
      attId_coords_le (hsorted.1 x hx).le (hkey₀.1.trans (hkeyl x hx).1.symm)
        (hkey₀.2.1.trans (hkeyl x hx).2.1.symm)
    rw [visibleFrom, isNewest_cons fun x hx hsame =>
      hsame.version_lt (hkey₀.1.trans (hkeyl x hx).1.symm) (hsorted.1 x hx)]
    by_cases ha : e₀.1.attId = attId
    · rw [if_neg (not_not.mpr ha)]
      by_cases hskip : last = some e₀.1.coords ∨ v < e₀.1.arrVerId
      · rw [if_pos hskip, ih hsorted.2 hkeyl fun c hc x hx => hlast c hc x (mem_cons_of_mem e₀ hx)]
        apply and_congr_left
        rintro ⟨hne, -⟩
        rw [if_neg]
        rintro ⟨-, hco, hle⟩
        rcases hskip with hskip | hskip
        · exact hne (hco ▸ hskip)
        · omega
      · rw [if_neg hskip]
        rw [not_or, not_lt] at hskip
        have hbehind : ∀ c ∈ some e₀.1.coords, ∀ x ∈ l, x.1.attId = attId → c ≤ x.1.coords := by
          rintro c ⟨⟩ x hx hxa
          rcases horder x hx with h | h
          · omega
          · exact h.2
        have hrest := ih hsorted.2 hkeyl hbehind
        by_cases hco : e₀.1.coords = e.1.coords
        · -- the first entry is what the version sees of its chunk
          have hsees : e₀.1.attId = attId ∧ e₀.1.coords = e.1.coords ∧ e₀.1.arrVerId ≤ v :=
            ⟨ha, hco, hskip.2⟩
          have hpassed : e ∉ visibleFrom attId v serves (some e₀.1.coords) l := fun h =>
            (hrest.mp h).2.1 (congrArg some hco)
          rw [if_pos hsees]
          by_cases hs : serves e₀ = true
          · rw [if_pos hs, mem_cons, or_iff_left hpassed]
            constructor
            · rintro rfl
              exact ⟨rfl, hskip.1, hs⟩
            · exact And.left
          · rw [if_neg hs]
            refine iff_of_false hpassed ?_
            rintro ⟨rfl, -, hs'⟩
            exact hs hs'
        · have hne : e ≠ e₀ := fun h => hco (h ▸ rfl)
          have hnot : IsNewest l attId e.1.coords v e → last ≠ some e.1.coords := by
            -- the chunk the walk starts at lies before the first entry
            intro h hl
            have hle := hlast _ hl e₀ mem_cons_self ha
            exact hco (le_antisymm (hbehind _ rfl e h.mem h.attId_eq) hle)
          have hiff : IsNewest l attId e.1.coords v e ∧ last ≠ some e.1.coords ∧ serves e ↔
              e ∈ visibleFrom attId v serves (some e₀.1.coords) l := by
            rw [hrest]
            simp +contextual [hco, hnot]
          rw [if_neg (not_and_of_not_right _ (not_and_of_not_left _ hco)), hiff]
          split
          · rw [mem_cons, or_iff_right hne]
          · rfl
    · rw [if_pos ha, if_neg (not_and_of_not_left _ ha)]
      constructor
      · intro h
        cases h
      · rintro ⟨h, -⟩
        have hid := h.attId_eq
        rcases horder e h.mem with hlt | heq
        · omega
        · exact (ha (heq.1.trans hid)).elim

/-- The stops are in row-major order, one for each chunk. -/
theorem visibleFrom_pairwise (hsorted : Sorted l)
    (hkey : ∀ e ∈ l, e.1.dsk = d ∧ e.1.coords.length = n ∧ attId ≤ e.1.attId)
    (hlast : ∀ c ∈ last, ∀ e ∈ l, e.1.attId = attId → c ≤ e.1.coords) :
    (visibleFrom attId v serves last l).Pairwise (fun x y => x.1.coords < y.1.coords) := by
  have hsub : (visibleFrom attId v serves last l).Sublist l := visibleFrom_sublist last l
  have hpair := hsorted.sublist hsub
  refine List.Pairwise.imp_of_mem ?_ hpair
  intro x y hx hy hlt
  rw [mem_visibleFrom hsorted hkey hlast] at hx hy
  have hkx := hkey x hx.1.mem
  have hky := hkey y hy.1.mem
  have hatt : x.1.attId = y.1.attId := hx.1.attId_eq.trans hy.1.attId_eq.symm
  rcases attId_coords_le hlt.le (hkx.1.trans hky.1.symm) (hkx.2.1.trans hky.2.1.symm) with h | h
  · omega
  · refine lt_of_le_of_ne h.2 fun hco => ?_
    have hv := SameChunk.version_lt ⟨hatt, hco⟩ (hkx.1.trans hky.1.symm) hlt
    exact hv.not_ge (hy.1.newest x hx.1.mem hx.1.attId_eq hco hx.1.le)

end Walk

/-! ## The iterator walks over the entries -/

namespace DBArray

variable (a : DBArray)

/-- The records of the index of the array. -/
def records : OrdMap DbKey Entry :=
  content a.db.store a.dsk

def addressOf (e : DbKey × Entry) : PersistentAddress :=
  decodedAddress a.attrs.getEmptyBitmapAttribute e.1

/-- The instance serves the chunk of an entry: it is no tombstone, and the instance is
responsible for it. -/
def serves (e : DbKey × Entry) : Bool :=
  !e.2.value.isNull && a.isResponsibleFor (a.addressOf e) e.2.auxMeta.primaryInstanceId

theorem not_serves (e : DbKey × Entry) :
    (e.2.value.isNull || !a.isResponsibleFor (a.addressOf e) e.2.auxMeta.primaryInstanceId) =
      !a.serves e := by
  rw [serves, Bool.not_and, Bool.not_not]

/-- The chunk object for an entry. -/
def chunkOf (e : DbKey × Entry) : CachedDBChunk :=
  ⟨a.addressOf e, e.2.value.key.size, e.2.auxMeta⟩

/-- The index has its marker, and its keys are those of chunks of the array. -/
structure WellIndexed : Prop where
  marker : (a.db.store.get (keyMax a.dsk)).isSome
  stored : StoredBy a.attrs a.renumber a.records
  bounds : ∀ e ∈ a.records.entries, List.Forall₂ (fun dim c => dim.startMin ≤ c) a.dims e.1.coords

theorem WellIndexed.closed {a : DBArray} (h : a.WellIndexed) :
    RocksIndexMap.Closed a.db.store a.dsk := by
  rcases isSome_iff_exists.mp h.marker with ⟨e, he⟩
  exact ⟨(keyMax a.dsk, e), mem_entries.mpr he, le_rfl⟩

end DBArray

namespace DBArrayIterator

variable {a : DBArray} {attr : AttributeDesc} {s : DBArrayIterator}
  {x : DbKey × Entry} {l : List (DbKey × Entry)}

/-- The iterator has the records `l` of its index before it, and its second index
iterator, if it is used, is in the index. -/
structure Before (a : DBArray) (s : DBArrayIterator) (l : List (DbKey × Entry)) : Prop where
  curr : Points a.dsk s.curr l
  records : ∀ e ∈ l, e ∈ a.records.entries
  currBitmap : a.attrs.getEmptyBitmapAttribute.isSome → ∃ lb, Points a.dsk s.currBitmap lb

/-- The same iterator with other index iterators. -/
def moved (s : DBArrayIterator) (curr currBitmap : RocksIterator DbKey) : DBArrayIterator :=
  { s with curr := curr, currBitmap := currBitmap }

theorem record_head (h : Before a s (x :: l)) : record s.curr = .ok x := by
  rcases h.curr.uncons with ⟨it, hit, -⟩
  rw [hit, record]

theorem addressAt_head (ha : a.WellIndexed) (h : Before a s (x :: l)) :
    addressAt a s.curr = .ok (a.addressOf x) := by
  rw [addressAt, record_head h]
  simp only [bind, Except.bind, ha.stored.keyToAddress_eq (h.records x mem_cons_self)]
  rfl

theorem advanceIters_eq (ha : a.WellIndexed) (h : Before a s (x :: l))
    (nextAddr oldAddr : PersistentAddress) :
    ∃ curr bm, Before a (s.moved curr bm) l ∧
      advanceIters a s nextAddr oldAddr = .ok (s.moved curr bm,
        (l.head?.map a.addressOf).getD nextAddr,
        l.head?.all fun y => decide ((a.addressOf y).attId ≠ oldAddr.attId)) := by
  rcases next_points h.curr with ⟨curr, hcurr, hp⟩
  have hbm : ∃ bm, (if a.attrs.getEmptyBitmapAttribute.isSome then
      lift (RocksIndexMap.next a.dsk s.currBitmap) else .ok s.currBitmap) = .ok bm ∧
      (a.attrs.getEmptyBitmapAttribute.isSome → ∃ lb, Points a.dsk bm lb) := by
    by_cases he : a.attrs.getEmptyBitmapAttribute.isSome
    · rcases h.currBitmap he with ⟨lb, hlb⟩
      rcases next_points hlb with ⟨bm, hbm, hpb⟩
      exact ⟨bm, by rw [if_pos he, lift_ok hbm], fun _ => ⟨_, hpb⟩⟩
    · exact ⟨s.currBitmap, if_neg he, fun h => (he h).elim⟩
  rcases hbm with ⟨bm, hbm, hpb⟩
  have hbefore : Before a (s.moved curr bm) l :=
    ⟨hp, fun e he => h.records e (mem_cons_of_mem x he), hpb⟩
  refine ⟨curr, bm, hbefore, ?_⟩
  simp only [advanceIters, lift_ok hcurr, hbm, bind, Except.bind, lift_ok hp.isEnd]
  cases l with
  | nil => rfl
  | cons y l =>
    have haddr := addressAt_head ha hbefore
    simp only [moved] at haddr
    simp [haddr, moved]

variable {rounds : Nat} {coords : List Int}

theorem skipLoop_eq (ha : a.WellIndexed) (hattr : attr ∈ a.attrs.attrs)
    (currAddr : PersistentAddress) (hcurr : currAddr.attId = attr.id) (h : Before a s (x :: l))
    (nextAddr : PersistentAddress) (hrounds : l.length < rounds) :
    ∃ curr bm,
      let m := l.dropWhile (passes (encodeAttributeID a.renumber attr) a.id currAddr.coords)
      Before a (s.moved curr bm) m ∧
      ∃ next, skipLoop a a.id currAddr rounds s nextAddr = .ok (s.moved curr bm, next,
          m.head?.all fun y => decide (y.1.attId ≠ encodeAttributeID a.renumber attr)) ∧
        ∀ y ∈ m.head?, y.1.attId = encodeAttributeID a.renumber attr → next = a.addressOf y := by
  induction l generalizing s x nextAddr rounds with
  | nil =>
    rcases advanceIters_eq ha h nextAddr currAddr with ⟨curr, bm, hbefore, hadv⟩
    cases rounds with
    | zero => omega
    | succ rounds =>
      refine ⟨curr, bm, hbefore, nextAddr, ?_, fun y hy => by cases hy⟩
      rw [skipLoop, hadv]
      rfl
  | cons y l ih =>
    rcases advanceIters_eq ha h nextAddr currAddr with ⟨curr, bm, hbefore, hadv⟩
    cases rounds with
    | zero => omega
    | succ rounds =>
      have hatt : (a.addressOf y).attId = currAddr.attId ↔
          y.1.attId = encodeAttributeID a.renumber attr := by
        rw [hcurr]
        exact ha.stored.attId_eq_iff (hbefore.records y mem_cons_self) hattr
      have hdone : (!decide ((a.addressOf y).attId ≠ currAddr.attId) &&
          (decide ((a.addressOf y).coords = currAddr.coords) ||
            decide ((a.addressOf y).arrVerId > a.id))) =
          passes (encodeAttributeID a.renumber attr) a.id currAddr.coords y := by
        simp only [decide_not, Bool.not_not, hatt]
        rfl
      have hadv' : advanceIters a s nextAddr currAddr = .ok (s.moved curr bm, a.addressOf y,
          decide ((a.addressOf y).attId ≠ currAddr.attId)) := hadv
      rw [skipLoop, hadv']
      simp only [bind, Except.bind]
      rw [hdone]
      by_cases hp : passes (encodeAttributeID a.renumber attr) a.id currAddr.coords y = true
      · rw [if_pos hp, dropWhile_cons_of_pos hp]
        exact ih hbefore (a.addressOf y) (by simpa using hrounds)
      · rw [if_neg hp, dropWhile_cons_of_neg hp]
        refine ⟨curr, bm, hbefore, a.addressOf y, ?_, ?_⟩
        · simp [hatt]
        · rintro z ⟨⟩ -
          rfl

theorem Before.length_lt (h : Before a s (x :: l)) : l.length < s.curr.length + 1 := by
  rcases h.curr with ⟨-, e, rest, hit, -⟩
  rw [hit]
  simp only [length_append, length_cons]
  omega

/-- The search stops at the next chunk the version sees and the instance serves. -/
theorem findLoop_eq (ha : a.WellIndexed) (hattr : attr ∈ a.attrs.attrs)
    (currAddr : PersistentAddress) (hcurr : currAddr.attId = attr.id) (h : Before a s (x :: l))
    (nextAddr : PersistentAddress) (hrounds : l.length < rounds) :
    ∃ curr bm,
      Before a (s.moved curr bm)
        (landing (encodeAttributeID a.renumber attr) a.id a.serves currAddr.coords l) ∧
      ∃ addr, addr.attId = attr.id ∧
        findLoop a a.id rounds s nextAddr currAddr = .ok (s.moved curr bm, addr) := by
  induction rounds generalizing s x l nextAddr currAddr with
  | zero => omega
  | succ rounds ih =>
    rcases skipLoop_eq ha hattr currAddr hcurr h nextAddr h.length_lt with
      ⟨curr, bm, hbefore, next, hskip, hnext⟩
    have hlen := (dropWhile_sublist
      (passes (encodeAttributeID a.renumber attr) a.id currAddr.coords) (l := l)).length_le
    rw [landing_eq, findLoop, hskip]
    cases hm : l.dropWhile (passes (encodeAttributeID a.renumber attr) a.id currAddr.coords) with
    | nil =>
      rw [hm] at hbefore
      exact ⟨curr, bm, hbefore, currAddr, hcurr, rfl⟩
    | cons y m =>
      rw [hm] at hbefore hnext hlen
      by_cases hy : y.1.attId = encodeAttributeID a.renumber attr
      · have hmem := hbefore.records y mem_cons_self
        have hid : (a.addressOf y).attId = attr.id :=
          (ha.stored.attId_eq_iff hmem hattr).mpr hy
        simp only [bind, Except.bind, head?_cons, all_some, hy, ne_eq, record_head hbefore,
          hnext y rfl]
        rw [a.not_serves]
        cases hs : a.serves y with
        | true => exact ⟨curr, bm, hbefore, a.addressOf y, hid, rfl⟩
        | false =>
          exact ih (a.addressOf y) hid hbefore (a.addressOf y) (by
            simp only [length_cons] at hlen
            omega)
      · simp only [head?_cons, all_some, hy, ne_eq]
        exact ⟨curr, bm, hbefore, currAddr, hcurr, rfl⟩

/-- What an iterator is when it stands before the records `m`: on the first one, if
that is of its attribute. -/
structure At (a : DBArray) (attr : AttributeDesc) (s : DBArrayIterator)
    (m : List (DbKey × Entry)) : Prop where
  before : Before a s m
  attId : s.addr.attId = attr.id
  positioned : s.positioned = true
  currChunk : s.currChunk =
    (m.head?.filter fun e => decide (e.1.attId = encodeAttributeID a.renumber attr)).map a.chunkOf
  coords : ∀ e ∈ m.head?, e.1.attId = encodeAttributeID a.renumber attr → s.addr.coords = e.1.coords

theorem onChunk_eq (h : Before a s (x :: l)) (hpos : s.positioned = true)
    (hid : (a.addressOf x).attId = attr.id)
    (hx : x.1.attId = encodeAttributeID a.renumber attr) :
    ∃ s', onChunk a s (a.addressOf x) x.2 = .ok s' ∧ At a attr s' (x :: l) := by
  have hat : ∀ chunk, At a attr { s with
      addr := a.addressOf x
      currChunk := some ⟨a.addressOf x, x.2.value.key.size, x.2.auxMeta⟩
      currBitmapChunk := chunk } (x :: l) := by
    intro chunk
    refine ⟨⟨h.curr, h.records, h.currBitmap⟩, hid, hpos, ?_, ?_⟩
    · rw [head?_cons, filter_some, if_pos (decide_eq_true hx)]
      rfl
    · rintro y ⟨⟩ -
      rfl
  rw [onChunk]
  cases hebm : a.attrs.getEmptyBitmapAttribute with
  | none => exact ⟨_, rfl, hat _⟩
  | some bitmapAttr =>
    simp only
    by_cases hb : bitmapAttr.id = (a.addressOf x).attId
    · rw [if_pos hb]
      exact ⟨_, rfl, hat _⟩
    · rcases h.currBitmap (by simp [hebm]) with ⟨lb, hlb⟩
      rcases hlb.cons with ⟨b, rest, hbit⟩
      have hrec : record s.currBitmap = .ok b := by rw [hbit, record]
      rw [if_neg hb, hrec]
      exact ⟨_, rfl, hat _⟩

theorem setCurrent_eq (ha : a.WellIndexed) (hattr : attr ∈ a.attrs.attrs) (h : Before a s l)
    (haddr : s.addr.attId = attr.id) : ∃ s', setCurrent a s = .ok s' ∧ At a attr s' l := by
  have hreset : Before a { resetChunkRefs s with positioned := true } l :=
    ⟨h.curr, h.records, h.currBitmap⟩
  cases l with
  | nil =>
    rw [setCurrent, lift_ok h.curr.isEnd]
    exact ⟨_, rfl, hreset, haddr, rfl, rfl, fun e he => by cases he⟩
  | cons e l =>
    have hiff : (a.addressOf e).attId = s.addr.attId ↔
        e.1.attId = encodeAttributeID a.renumber attr := by
      rw [haddr]
      exact ha.stored.attId_eq_iff (h.records e mem_cons_self) hattr
    rw [setCurrent, lift_ok h.curr.isEnd]
    simp only [bind, Except.bind, record_head h, addressAt_head ha h]
    by_cases he : e.1.attId = encodeAttributeID a.renumber attr
    · rw [if_pos (hiff.mpr he)]
      exact onChunk_eq hreset rfl ((hiff.mpr he).trans haddr) he
    · rw [if_neg (hiff.not.mpr he)]
      refine ⟨_, rfl, hreset, haddr, rfl, ?_, ?_⟩
      · rw [head?_cons, filter_some, if_neg (by simpa using he)]
        rfl
      · rintro x ⟨⟩ hx
        exact (he hx).elim

/-- A search from a record stops at the next chunk. -/
theorem findNextLogicalChunk_eq (ha : a.WellIndexed) (hattr : attr ∈ a.attrs.attrs)
    (h : Before a s (x :: l)) (haddr : s.addr.attId = attr.id) {currAddr : PersistentAddress}
    (hcurr : currAddr.attId = attr.id) (own : Bool) :
    ∃ s', findNextLogicalChunk a s currAddr own a.id = .ok s' ∧
      At a attr s'
        (landing (encodeAttributeID a.renumber attr) a.id a.serves currAddr.coords l) := by
  rcases findLoop_eq ha hattr currAddr hcurr h { } h.length_lt with
    ⟨curr, bm, hbefore, addr, hid, hfind⟩
  rw [findNextLogicalChunk, hfind]
  cases own with
  | true =>
    exact setCurrent_eq ha hattr ⟨hbefore.curr, hbefore.records, hbefore.currBitmap⟩ hid
  | false => exact setCurrent_eq ha hattr hbefore haddr

/-- `operator++` moves from one stop to the next. -/
theorem next_eq (ha : a.WellIndexed) (hattr : attr ∈ a.attrs.attrs) (h : At a attr s (x :: l))
    (hx : x.1.attId = encodeAttributeID a.renumber attr) :
    ∃ s', next a s attr = .ok s' ∧ At a attr s'
      (landing (encodeAttributeID a.renumber attr) a.id a.serves x.1.coords l) := by
  rw [next, if_pos h.positioned, ← h.coords x rfl hx]
  exact findNextLogicalChunk_eq ha hattr h.before h.attId h.attId true

/-- The key `restart` looks for. -/
def firstKey (a : DBArray) (attr : AttributeDesc) : DbKey :=
  fillKey a.renumber a.dsk attr (startMin a) (startMin_ne_nil a) a.id

/-- A search stops before the first entry that is not before its key. -/
theorem search_eq (ha : a.WellIndexed) (attr : AttributeDesc) (s : DBArrayIterator)
    (hne : coords ≠ []) :
    ∃ curr bm, search a s attr coords hne = .ok (s.moved curr bm) ∧
      Before a (s.moved curr bm) (a.records.seek (fillKey a.renumber a.dsk attr coords hne a.id)) ∧
      curr = a.db.store.seek (fillKey a.renumber a.dsk attr coords hne a.id) := by
  have hmem : ∀ k, ∀ e ∈ a.records.seek k, e ∈ a.records.entries :=
    fun k e he => (seek_suffix k).mem he
  have hpoints : ∀ attr', ∃ it, leastUpper a.db
      (fillKey a.renumber a.dsk attr' coords hne a.id) = .ok it ∧
      Points a.dsk it (a.records.seek (fillKey a.renumber a.dsk attr' coords hne a.id)) ∧
      it = a.db.store.seek (fillKey a.renumber a.dsk attr' coords hne a.id) := by
    intro attr'
    have hp := seek_points (k := fillKey a.renumber a.dsk attr' coords hne a.id) ha.closed rfl
    rcases hp.cons with ⟨e, rest, hit⟩
    exact ⟨_, by rw [leastUpper, hit], hp, rfl⟩
  rcases hpoints attr with ⟨curr, hcurr, hp, hseek⟩
  rw [search, lift_ok hcurr]
  cases hebm : a.attrs.getEmptyBitmapAttribute with
  | none =>
    exact ⟨curr, s.currBitmap, rfl, ⟨hp, hmem _, fun h => by simp [hebm] at h⟩, hseek⟩
  | some ebm =>
    rcases hpoints ebm with ⟨bm, hbm, hpb, -⟩
    simp only [lift_ok hbm]
    exact ⟨curr, bm, rfl, ⟨hp, hmem _, fun _ => ⟨_, hpb⟩⟩, hseek⟩

theorem startMin_le {dims : List DimensionDesc}
    (h : List.Forall₂ (fun dim c => dim.startMin ≤ c) dims coords) :
    dims.map DimensionDesc.startMin ≤ coords := by
  induction h with
  | nil => exact le_rfl
  | cons hle _ ih =>
    rw [map_cons]
    rcases hle.lt_or_eq with hlt | heq
    · exact (cons_lt_cons_iff.mpr (.inl hlt)).le
    · rcases ih.lt_or_eq with hlt | heq'
      · exact (cons_lt_cons_iff.mpr (.inr ⟨heq, hlt⟩)).le
      · rw [heq, heq']

section

variable {e : DbKey × Entry} {k : DbKey}

theorem records_key (ha : a.WellIndexed) (he : e ∈ a.records.entries) :
    e.1.dsk = a.dsk ∧ e.1.coords.length = a.dims.length :=
  ⟨(RocksIndexMap.mem_content.mp he).2.1, (ha.bounds e he).length_eq.symm⟩

/-- From a key of the attribute on, the index has only this attribute and later ones. -/
theorem seek_key (ha : a.WellIndexed) (hd : k.dsk = a.dsk) (hn : k.coords.length = a.dims.length)
    (he : e ∈ a.records.seek k) :
    e.1.dsk = a.dsk ∧ e.1.coords.length = a.dims.length ∧ k.attId ≤ e.1.attId := by
  rw [mem_seek] at he
  have hkey := records_key ha he.1
  refine ⟨hkey.1, hkey.2, ?_⟩
  rcases attId_coords_le he.2 (hd.trans hkey.1.symm) (hn.trans hkey.2.symm) with h | h
  · exact h.le
  · exact h.1.le

/-- What a version sees is found from the first key on. -/
theorem isNewest_seek (ha : a.WellIndexed) {coords : List Int} :
    IsNewest (a.records.seek (firstKey a attr)) (encodeAttributeID a.renumber attr) coords a.id e ↔
      IsNewest a.records.entries (encodeAttributeID a.renumber attr) coords a.id e := by
  have hfrom : ∀ x ∈ a.records.entries, x.1.attId = encodeAttributeID a.renumber attr →
      x.1.arrVerId ≤ a.id → x ∈ a.records.seek (firstKey a attr) := by
    intro x hx hatt hv
    have hkey := records_key ha hx
    refine mem_seek.mpr ⟨hx, le_of_coords hkey.1.symm ?_ hatt.symm ?_⟩
    · simp [firstKey, fillKey, startMin, hkey.2]
    · rcases (startMin_le (ha.bounds x hx)).lt_or_eq with hlt | heq
      · exact .inl hlt
      · exact .inr ⟨heq, hv⟩
  apply isNewest_congr
  · intro x hx
    exact (mem_seek.mp hx).1
  · intro x hx
    exact hfrom x hx.mem hx.attId_eq hx.le

end

variable (ha : a.WellIndexed)

include ha

/-- `restart` stops at the first chunk. -/
theorem restart_eq (hattr : attr ∈ a.attrs.attrs) (haddr : s.addr.attId = attr.id) :
    ∃ s' m, restart a s attr = .ok s' ∧ At a attr s' m ∧
      m.length ≤ a.records.entries.length ∧
      visibleAt (encodeAttributeID a.renumber attr) a.id a.serves m =
        visibleFrom (encodeAttributeID a.renumber attr) a.id a.serves none
          (a.records.seek (firstKey a attr)) := by
  let s₀ : DBArrayIterator :=
    { s with addr := { s.addr with coords := startMin a, arrVerId := a.id } }
  rcases search_eq ha attr s₀ (startMin_ne_nil a) with ⟨curr, bm, hsearch, hbefore, -⟩
  have hid : (s₀.moved curr bm).addr.attId = attr.id := haddr
  have hrun : restart a s attr = settle a (s₀.moved curr bm) := by
    rw [restart]
    simp only [bind, Except.bind]
    rw [hsearch]
  have hlen := (seek_suffix (m := a.records) (firstKey a attr)).length_le
  change Before a (s₀.moved curr bm) (a.records.seek (firstKey a attr)) at hbefore
  rw [hrun, settle, lift_ok hbefore.curr.isEnd]
  cases hseek : a.records.seek (firstKey a attr) with
  | nil =>
    rw [hseek] at hbefore
    rcases setCurrent_eq ha hattr hbefore hid with ⟨s', hs', hat⟩
    exact ⟨s', [], hs', hat, by simp, rfl⟩
  | cons e l =>
    rw [hseek] at hbefore hlen
    have hmem := hbefore.records e mem_cons_self
    have hiff : (a.addressOf e).attId = (s₀.moved curr bm).addr.attId ↔
        e.1.attId = encodeAttributeID a.renumber attr := by
      rw [hid]
      exact ha.stored.attId_eq_iff hmem hattr
    have hland : ∀ c, (landing (encodeAttributeID a.renumber attr) a.id a.serves c l).length ≤
        a.records.entries.length := fun c =>
      (landing_suffix c l).length_le.trans ((Nat.le_succ _).trans hlen)
    simp only [bind, Except.bind, addressAt_head ha hbefore]
    by_cases he : e.1.attId = encodeAttributeID a.renumber attr
    · rw [if_neg (not_not.mpr (hiff.mpr he)), visibleFrom, if_neg (not_not.mpr he)]
      by_cases hv : e.1.arrVerId > a.id
      · -- too new, so it is not at the first coordinates
        rcases findNextLogicalChunk_eq ha hattr hbefore hid hid true with ⟨s', hs', hat⟩
        refine ⟨s', _, ?_, hat, hland _, ?_⟩
        · exact (if_pos hv).trans hs'
        · rw [← visibleFrom_landing, if_pos (.inr hv)]
          have hfirst : (firstKey a attr) ≤ e.1 := (mem_seek.mp (hseek ▸ mem_cons_self)).2
          apply visibleFrom_some
          -- otherwise it would be of the chunk at these coordinates, and not too new
          intro y hy hya hco
          have hsorted := hseek ▸ a.records.sorted_seek (firstKey a attr)
          have hey := (pairwise_cons.mp hsorted).1 y hy
          have hd := (records_key ha hmem).1.symm
          have hd' := (records_key ha (hbefore.records y (mem_cons_of_mem e hy))).1.symm
          have hsame : SameChunk (firstKey a attr) e.1 :=
            SameChunk.between ⟨hya.symm, hco.symm⟩ hd (hd.symm.trans hd') hfirst hey.le
          exact (hsame.version_le hd hfirst).not_gt hv
      · have hserve : (!a.isResponsibleFor (a.addressOf e) e.2.auxMeta.primaryInstanceId ||
            e.2.value.isNull) = !a.serves e := by rw [Bool.or_comm, a.not_serves]
        have hnot : ¬((none : Option (List Int)) = some e.1.coords ∨ a.id < e.1.arrVerId) := by
          simpa using hv
        rw [if_neg (show ¬(a.addressOf e).arrVerId > a.id from hv), record_head hbefore,
          if_neg hnot]
        simp only [hserve]
        cases hs : a.serves e with
        | true =>
          rcases setCurrent_eq ha hattr hbefore hid with ⟨s', hs', hat⟩
          refine ⟨s', e :: l, hs', hat, hlen, ?_⟩
          rw [visibleAt, if_pos he]
          rfl
        | false =>
          rcases findNextLogicalChunk_eq ha hattr hbefore hid ((hiff.mpr he).trans hid) false with
            ⟨s', hs', hat⟩
          refine ⟨s', _, hs', hat, hland _, ?_⟩
          rw [← visibleFrom_landing]
          rfl
    · rw [if_pos (hiff.not.mpr he), visibleFrom, if_pos he]
      rcases setCurrent_eq ha hattr hbefore hid with ⟨s', hs', hat⟩
      refine ⟨s', e :: l, hs', hat, hlen, ?_⟩
      rw [visibleAt, if_neg he]

theorem scan_eq (hattr : attr ∈ a.attrs.attrs) (h : At a attr s l) (hrounds : l.length < rounds) :
    scan a attr rounds s = .ok
      ((visibleAt (encodeAttributeID a.renumber attr) a.id a.serves l).map
        fun e => (a.chunkOf e, e)) := by
  induction rounds generalizing s l with
  | zero => omega
  | succ rounds ih =>
    have hchunk := h.currChunk
    cases l with
    | nil =>
      rw [scan, hchunk]
      rfl
    | cons e l =>
      rw [head?_cons, filter_some] at hchunk
      by_cases he : e.1.attId = encodeAttributeID a.renumber attr
      · rw [if_pos (decide_eq_true he), map_some] at hchunk
        rcases next_eq ha hattr h he with ⟨s', hs', hat⟩
        have hsuffix : landing (encodeAttributeID a.renumber attr) a.id a.serves e.1.coords l
            <:+ l := landing_suffix e.1.coords l
        have hlen := hsuffix.length_le
        simp only [length_cons] at hrounds
        rw [scan, hchunk, visibleAt, if_pos he, visibleFrom_landing]
        simp [record_head h.before, bind, Except.bind, hs', ih hat (by omega)]
      · rw [if_neg (by simpa using he)] at hchunk
        rw [scan, hchunk, visibleAt, if_neg he]
        rfl

/-- The marker is behind the last record. -/
theorem record_marker {k : DbKey} (hk : k.dsk = a.dsk) (hnil : a.records.seek k = []) :
    ∃ e, record (a.db.store.seek k) = .ok (keyMax a.dsk, e) := by
  rcases isSome_iff_exists.mp ha.marker with ⟨x, hx⟩
  have hle : k ≤ keyMax a.dsk := le_keyMax_iff.mpr hk.le
  have hhead : (a.db.store.seek k).head? = some (keyMax a.dsk, x) := by
    refine head?_seek.mpr ⟨⟨mem_entries.mpr hx, hle⟩, fun y hy hky => ?_⟩
    by_contra hlt
    have hmem : y ∈ a.records.entries := mem_content.mpr ⟨hy,
      le_antisymm (le_keyMax_iff.mp (not_le.mp hlt).le) (hk ▸ dsk_mono hky), (not_le.mp hlt).ne⟩
    have hseek := mem_seek.mpr ⟨hmem, hky⟩
    rw [hnil] at hseek
    cases hseek
  rcases head?_eq_some_iff.mp hhead with ⟨rest, hrest⟩
  exact ⟨x, by rw [hrest, record]⟩

/-- `setPosition` finds a chunk if the version sees an entry of it that the instance
serves, and then stands on that entry. -/
theorem setPosition_eq (hattr : attr ∈ a.attrs.attrs) (haddr : s.addr.attId = attr.id)
    {pos : List Int} (hpos : pos.length = a.dims.length) :
    ∃ s' found, setPosition a s attr pos hpos = .ok (s', found) ∧
      (found = true ↔ ∃ e, IsNewest a.records.entries (encodeAttributeID a.renumber attr)
        (getChunkPositionFor a.dims pos) a.id e ∧ a.serves e) ∧
      ∀ e, IsNewest a.records.entries (encodeAttributeID a.renumber attr)
        (getChunkPositionFor a.dims pos) a.id e → a.serves e → s'.currChunk =
        some (a.chunkOf e) := by
  have hne := getChunkPositionFor_ne_nil a hpos
  let key := fillKey a.renumber a.dsk attr (getChunkPositionFor a.dims pos) hne a.id
  have hiff : ∀ e, IsNewest a.records.entries (encodeAttributeID a.renumber attr)
      (getChunkPositionFor a.dims pos) a.id e ↔
        (a.records.seek key).head? = some e ∧ e.1.attId = encodeAttributeID a.renumber attr ∧
          e.1.coords = getChunkPositionFor a.dims pos := fun e => isNewest_iff (k := key)
  simp only [hiff]
  rcases search_eq ha attr s hne with ⟨curr, bm, hsearch, hbefore, hcurr⟩
  have hid : (s.moved curr bm).addr.attId = attr.id := haddr
  rw [setPosition, hsearch]
  simp only [bind, Except.bind]
  cases hseek : a.records.seek key with
  | nil =>
    rcases record_marker ha rfl hseek with ⟨e, he⟩
    have hrec : record (s.moved curr bm).curr = .ok (keyMax a.dsk, e) := hcurr ▸ he
    have haddrAt : addressAt a (s.moved curr bm).curr = .ok ⟨0, [], 0⟩ := by
      rw [addressAt, hrec]
      rfl
    have hnot : positionExists a (getChunkPositionFor a.dims pos) e ⟨0, [], 0⟩ = false := by
      simp [positionExists]
    rw [hrec, haddrAt]
    simp only [hnot]
    exact ⟨_, _, rfl, by simp [resetChunkRefs], by simp⟩
  | cons x l =>
    rw [hseek] at hbefore
    have hlen : (a.addressOf x).coords.length ≠ 0 := by
      change x.1.coords.length ≠ 0
      rw [(records_key ha (hbefore.records x mem_cons_self)).2]
      exact (length_pos_iff.mpr a.dims_ne_nil).ne'
    have hcond : positionExists a (getChunkPositionFor a.dims pos) x.2 (a.addressOf x) =
        (decide (x.1.coords = getChunkPositionFor a.dims pos) && a.serves x) := by
      rw [positionExists, if_pos hlen, Bool.and_comm (!x.2.value.isNull), Bool.and_assoc]
      rfl
    rw [record_head hbefore, addressAt_head ha hbefore]
    simp only [hcond, head?_cons, Option.some.injEq]
    cases hyes : decide (x.1.coords = getChunkPositionFor a.dims pos) && a.serves x with
    | true =>
      rw [Bool.and_eq_true, decide_eq_true_iff] at hyes
      rcases setCurrent_eq ha hattr hbefore hid with ⟨s', hs', hat⟩
      have hchunk := hat.currChunk
      rw [head?_cons, filter_some] at hchunk
      simp only [hs']
      refine ⟨s', _, rfl, ?_, ?_⟩
      · simp [hchunk, hyes]
      · rintro e ⟨rfl, hatt, -⟩ -
        rw [hchunk, if_pos (decide_eq_true hatt)]
        rfl
    | false =>
      have hno : x.1.coords = getChunkPositionFor a.dims pos → ¬a.serves x = true := by
        simpa using hyes
      refine ⟨_, _, rfl, by simpa [resetChunkRefs] using fun _ => hno, ?_⟩
      rintro e ⟨rfl, -, hco⟩ hserves
      exact (hno hco hserves).elim

end DBArrayIterator

/-- A scan of a stored version visits, in row-major order and once each, exactly the
chunks of which the version sees an entry that is no tombstone and that the instance
is responsible for, each time on that entry; `setPosition` finds exactly these. -/
theorem versionedScan_exact {a : DBArray} (ha : a.WellIndexed) {attr : AttributeDesc}
    (hattr : attr ∈ a.attrs.attrs) {s : DBArrayIterator} (haddr : s.addr.attId = attr.id) :
    (∃ s', ∃ visited : List (DbKey × Entry), DBArrayIterator.restart a s attr = .ok s' ∧
      DBArrayIterator.scan a attr (a.records.entries.length + 1) s' =
        .ok (visited.map fun e => (a.chunkOf e, e)) ∧
      visited.Pairwise (fun x y => x.1.coords < y.1.coords) ∧
      ∀ e, e ∈ visited ↔
        IsNewest a.records.entries (encodeAttributeID a.renumber attr) e.1.coords a.id e ∧
          e.2.value.isNull = false ∧
          a.isResponsibleFor (a.addressOf e) e.2.auxMeta.primaryInstanceId = true) ∧
    ∀ pos (hpos : pos.length = a.dims.length),
      ∃ s' found, DBArrayIterator.setPosition a s attr pos hpos = .ok (s', found) ∧
        (found = true ↔ ∃ e,
          IsNewest a.records.entries (encodeAttributeID a.renumber attr)
            (getChunkPositionFor a.dims pos) a.id e ∧
          e.2.value.isNull = false ∧
          a.isResponsibleFor (a.addressOf e) e.2.auxMeta.primaryInstanceId = true) := by
  have hserves : ∀ e, a.serves e = true ↔ e.2.value.isNull = false ∧
      a.isResponsibleFor (a.addressOf e) e.2.auxMeta.primaryInstanceId = true := by
    intro e
    rw [DBArray.serves, Bool.and_eq_true, Bool.not_eq_true']
  constructor
  · rcases DBArrayIterator.restart_eq ha hattr haddr with ⟨s', m, hs', hat, hlen, hvisible⟩
    have hsorted := a.records.sorted_seek (DBArrayIterator.firstKey a attr)
    have hn : (DBArrayIterator.firstKey a attr).coords.length = a.dims.length :=
      length_map DimensionDesc.startMin
    have hkey : ∀ e ∈ a.records.seek (DBArrayIterator.firstKey a attr), e.1.dsk = a.dsk ∧
        e.1.coords.length = a.dims.length ∧ encodeAttributeID a.renumber attr ≤ e.1.attId :=
      fun e he => DBArrayIterator.seek_key ha rfl hn he
    refine ⟨s', _, hs', DBArrayIterator.scan_eq ha hattr hat (by omega), ?_, ?_⟩
    · rw [hvisible]
      exact visibleFrom_pairwise hsorted hkey (fun c hc => by cases hc)
    · intro e
      rw [hvisible, mem_visibleFrom hsorted hkey (fun c hc => by cases hc),
        DBArrayIterator.isNewest_seek ha, hserves]
      simp
  · intro pos hpos
    rcases DBArrayIterator.setPosition_eq ha hattr haddr hpos with ⟨s', found, hs', hfound, -⟩
    refine ⟨s', found, hs', hfound.trans ?_⟩
    simp [hserves]

/-- Version 3 of an array with one dimension in chunks of 5, over the sample index. -/
def sampleArray : DBArray where
  id := 3
  attrs := sampleAttributes
  dims := [.ofBounds 0 9 5 (by decide)]
  dims_ne_nil := by decide
  dsk := ⟨1, 1⟩
  renumber := true
  db := sampleIndex
  isResponsibleFor _ primary := primary = 0

theorem sampleArray_wellIndexed : sampleArray.WellIndexed where
  marker := by decide +kernel
  stored := by
    unfold StoredBy
    decide +kernel
  bounds := by decide +kernel

/-- Version 3 sees the chunk that version 2 wrote, not the tombstone of version 4. -/
theorem versionedScan_sample :
    ∃ s' found, DBArrayIterator.setPosition sampleArray
        (DBArrayIterator.construct sampleArray 0) ⟨0, false⟩ [3] rfl = .ok (s', found) ∧
      (found = true ↔ ∃ e,
        IsNewest sampleArray.records.entries (encodeAttributeID true ⟨0, false⟩)
          (getChunkPositionFor sampleArray.dims [3]) 3 e ∧
        e.2.value.isNull = false ∧
        sampleArray.isResponsibleFor (sampleArray.addressOf e) e.2.auxMeta.primaryInstanceId =
          true) :=
  (versionedScan_exact sampleArray_wellIndexed
    (by decide : (⟨0, false⟩ : AttributeDesc) ∈ sampleArray.attrs.attrs)
    (s := DBArrayIterator.construct sampleArray 0) rfl).2 [3] rfl

end SciDB.Index
