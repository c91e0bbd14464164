import SciDB.Lib.Ranges
import SciDB.Lib.Checked

/-!
# Replica placement

`ReplicationManager::getReplicasInstanceId` picks, for one chunk, the primary
instance and `redundancy` further instances.  It keeps the index ranges of the
servers that already hold a copy and maps a hash value into the indices that are
left, so that no two copies share a server.

The definitions follow `src/array/ReplicationMgr.cpp` of a debug build: every
`SCIDB_ASSERT` and every array access is a test that raises a fault.

Main results:

- Theorem {lit}`findIndexInResidency_spec`: the index found lies inside the
  residency and outside the unavailable ranges.
- Theorem {lit}`computeNextReplicaTarget_spec`: one placement step keeps the
  placement invariant.
- Theorem {lit}`getReplicasInstanceId_placement`: the placement succeeds on
  distinct servers exactly when there are enough of them.
-/

namespace SciDB.Replication

open Ranges List

/-! ## Instances and residencies -/

/-- `InstanceID`, an unsigned 64-bit number. -/
abbrev InstanceID := UInt64

/-- The server of a physical instance is the upper half of its id. -/
def getServerId (iId : InstanceID) : Nat :=
  (iId >>> 32).toNat

/-- `MAX_REDUNDANCY` -/
def MAX_REDUNDANCY : Nat := 8

/-- `MAX_INSTANCE_BITS` -/
def MAX_INSTANCE_BITS : UInt64 := 10

/-- Fibonacci hash of a 64-bit key into `2 ^ fib_B` buckets. -/
def fibHash64 (key fib_B : UInt64) : UInt64 :=
  (key * 11400714819323198485) >>> (64 - fib_B)

/-- What can go wrong while replicas are placed. -/
inductive Fault
  /-- `SCIDB_LE_INVALID_REDUNDANCY` with the three values put into its message. -/
  | invalidRedundancy (redundancy servers maxRedundancy : Nat)
  /-- a failed `SCIDB_ASSERT` or `ASSERT_EXCEPTION` -/
  | assertion (text : String)
  /-- an access past the end of the residency or of a fixed-size array -/
  | outOfRange (index size : Nat)
deriving DecidableEq, Repr

/-- `ServerCounter`: the number of times the server changes along a list. -/
def serverCount (res : List InstanceID) : Nat :=
  (res.foldl (fun (st : Nat × Option Nat) i =>
      if st.2 = some (getServerId i) then st else (st.1 + 1, some (getServerId i)))
    (0, none)).1

/-- `res->getPhysicalInstanceAt(i)` -/
def getPhysicalInstanceAt (res : List InstanceID) (i : Nat) : Except Fault InstanceID :=
  match res[i]? with
  | some iid => .ok iid
  | none => .error (.outOfRange i res.length)

/-! ## Unavailable ranges -/

/-- The loop of `validateRangesInDebug` over consecutive ranges. -/
def validateConsecutive : List IndexRange → Bool
  | [] => true
  | [r] => decide (r.2 ≥ r.1)
  | r :: s :: rs => decide (r.2 ≥ r.1) && decide (s.1 > r.2) && validateConsecutive (s :: rs)

/-- `validateRangesInDebug`: the ranges are ordered, do not overlap and do not
cover `maxSize` elements. -/
def validateRangesInDebug (ranges : List IndexRange) (maxSize : Nat) : Bool :=
  validateConsecutive ranges &&
    (ranges.getLast?.all fun r => decide (r.2 < maxSize)) &&
    decide (used ranges < maxSize)

/-- The loop of `insertLastInOrder`: the ranges before the last one are listed
from the highest index down, and the last range sinks below those that start
after it. -/
def sinkLast : List IndexRange → IndexRange → Except Fault (List IndexRange)
  | [], r => .ok [r]
  | p :: ps, r =>
    if r.1 < p.1 then
      require (r.2 < p.1) (.assertion "ranges[curIndex-1].second < ranges[curIndex].first") <|
      require (p.1 ≤ p.2) (.assertion "ranges[curIndex].first <= ranges[curIndex].second") do
        let below ← sinkLast ps r
        return p :: below
    else
      require (p.2 < r.1) (.assertion "ranges[curIndex-1].second < ranges[curIndex].first") <|
      require (r.1 ≤ r.2) (.assertion "ranges[curIndex].first <= ranges[curIndex].second") <|
        .ok (r :: p :: ps)

/-- `insertLastInOrder` applied to `ranges` followed by `last`. -/
def insertLastInOrder (ranges : List IndexRange) (last : IndexRange) :
    Except Fault (List IndexRange) :=
  require (last.1 ≤ last.2) (.assertion "ranges[curIndex].first <= ranges[curIndex].second") do
    let sunk ← sinkLast ranges.reverse last
    return sunk.reverse

/-- The loop of `findIndexInResidency`: `available` counts the indices not
covered so far and `afterLastRange` is where the current gap starts. -/
def findIndexLoop (index maxSize : Nat) :
    List IndexRange → (available afterLastRange : Nat) → Except Fault Nat
  | [], available, afterLastRange =>
    require (available < index + 1) (.assertion "available < index+1") <|
    require (afterLastRange < maxSize) (.assertion "afterLastRange < maxSize") <|
    require (afterLastRange + (index - available) < maxSize) (.assertion "Unreachable code") <|
      .ok (afterLastRange + (index - available))
  | r :: rs, available, afterLastRange =>
    let newAvailable := available + (r.1 - afterLastRange)
    if newAvailable ≥ index + 1 then
      require (afterLastRange + (index - available) < maxSize) (.assertion "Unreachable code") <|
        .ok (afterLastRange + (index - available))
    else
      require (r.2 + 1 < maxSize) (.assertion "afterLastRange < maxSize") <|
        findIndexLoop index maxSize rs newAvailable (r.2 + 1)

/-- `findIndexInResidency`: the `index`-th element outside the unavailable
ranges. -/
def findIndexInResidency (index : Nat) (unavailableRanges : List IndexRange) (maxSize : Nat) :
    Except Fault Nat :=
  require (index < maxSize) (.assertion "index<maxSize") <|
  require (validateRangesInDebug unavailableRanges maxSize = true)
    (.assertion "validateRangesInDebug") <|
    findIndexLoop index maxSize unavailableRanges 0 0

/-! ## Placing the copies -/

/-- Length of the leading run of instances on one server.  The two scanning
loops of `computeNextReplicaTarget` stop at the first instance of another
server because the residency is sorted. -/
def sameServerRun (serverId : Nat) : List InstanceID → Nat
  | [] => 0
  | iid :: rest => if getServerId iid = serverId then sameServerRun serverId rest + 1 else 0

/-- What the placement loop carries: the replicas chosen so far and the index
ranges of their servers, in increasing order. -/
structure Placement where
  replicas : List InstanceID
  unavailableRanges : List IndexRange
deriving DecidableEq, Repr

/-- `computeNextReplicaTarget`: choose the next replica and return the number of
instances on its server. -/
def computeNextReplicaTarget (res : List InstanceID) (targetIndex : Nat) (p : Placement) :
    Except Fault (Placement × Nat) := do
  let nReplicas := p.replicas.length
  let i ← findIndexInResidency targetIndex p.unavailableRanges res.length
  require (i < res.length) (.assertion "i < resSize") do
    let iid ← getPhysicalInstanceAt res i
    let serverId := getServerId iid
    -- `replicas` and `unavailableRanges` are arrays of MAX_REDUNDANCY + 1 entries
    require (nReplicas < MAX_REDUNDANCY + 1) (.outOfRange nReplicas (MAX_REDUNDANCY + 1)) do
      let stop := i + 1 + sameServerRun serverId (res.drop (i + 1))
      let start := i - sameServerRun serverId (res.take i).reverse
      require (stop > start) (.assertion "end>size_t(begin+1)") do
        let ranges ← insertLastInOrder p.unavailableRanges (start, stop - 1)
        require (validateRangesInDebug ranges (res.length + 1) = true)
          (.assertion "validateRangesInDebug") <|
          return (⟨p.replicas ++ [iid], ranges⟩, stop - start)

/-- The loop of `getReplicasInstanceId` over the redundant copies: `todo` copies
are still to be placed. -/
def replicaLoop (res : List InstanceID) (redundancy primaryInstanceIndex : Nat) :
    (todo : Nat) → Placement → (nInstancesRemaining : Nat) → Except Fault Placement
  | 0, p, _ => .ok p
  | todo + 1, p, nInstancesRemaining =>
    let curReplica := redundancy - todo
    if nInstancesRemaining ≤ 0 then
      .error (.invalidRedundancy redundancy curReplica MAX_REDUNDANCY)
    else do
      let chunkId : UInt64 := .ofNat primaryInstanceIndex * .ofNat (redundancy + 1) +
        .ofNat curReplica
      let instanceIndex := (fibHash64 chunkId MAX_INSTANCE_BITS).toNat % nInstancesRemaining
      let (p', nUnavailable) ← computeNextReplicaTarget res instanceIndex p
      require (nUnavailable ≤ nInstancesRemaining)
        (.assertion "nUnavailable <= nInstancesRemaining") <|
        replicaLoop res redundancy primaryInstanceIndex todo p' (nInstancesRemaining - nUnavailable)

/-- `getReplicasInstanceId` for the chunk whose primary position in the
residency is `primaryInstanceIndex`. -/
def getReplicasInstanceId (res : List InstanceID) (redundancy primaryInstanceIndex : Nat) :
    Except Fault (List InstanceID) :=
  if redundancy > MAX_REDUNDANCY ∨ res.length ≤ redundancy then
    .error (.invalidRedundancy redundancy (serverCount res) MAX_REDUNDANCY)
  else do
    let (p, nUnavailable) ← computeNextReplicaTarget res primaryInstanceIndex ⟨[], []⟩
    require (nUnavailable ≤ res.length) (.assertion "nUnavailable <= resSize") do
      let p' ← replicaLoop res redundancy primaryInstanceIndex redundancy p
        (res.length - nUnavailable)
      require ((p'.replicas.map getServerId).Nodup)
        (.assertion "getServerId(replicas[i]) != getServerId(replicas[j])") <|
        return p'.replicas

/-! ## Range bookkeeping succeeds -/

variable {ranges : List IndexRange} {maxSize index n targetIndex redundancy primary s i todo : Nat}
  {res : List InstanceID} {p p' : Placement} {r : IndexRange}

theorem validateConsecutive_of_separated (h : Separated ranges) :
    validateConsecutive ranges = true := by
  induction ranges with
  | nil => rfl
  | cons r rs ih =>
    have hr : r.1 ≤ r.2 := h.1 r mem_cons_self
    cases rs with
    | nil => simpa [validateConsecutive] using hr
    | cons s rs =>
      have hlt : r.2 < s.1 := h.head_lt s mem_cons_self
      simp [validateConsecutive, hr, hlt, ih h.tail]

/-- The debug validation accepts separated ranges that leave something over. -/
theorem validateRangesInDebug_of_separated (h : Separated ranges) (hb : Below ranges maxSize)
    (hu : used ranges < maxSize) :
    validateRangesInDebug ranges maxSize = true := by
  have hlast : (ranges.getLast?.all fun r => decide (r.2 < maxSize)) = true := by
    cases hl : ranges.getLast? with
    | none => rfl
    | some r => simpa using hb r (mem_of_getLast? hl)
  simp [validateRangesInDebug, validateConsecutive_of_separated h, hlast, hu]

/-- The sinking loop puts the last range between the ranges below and above it. -/
theorem sinkLast_spec {ps : List IndexRange} (h : Separated ps.reverse) (hr : r.1 ≤ r.2)
    (hdisj : ∀ p ∈ ps, p.2 < r.1 ∨ r.2 < p.1) :
    ∃ xs ys, ps.reverse = xs ++ ys ∧ sinkLast ps r = .ok (xs ++ r :: ys).reverse ∧
      (∀ x ∈ xs, x.2 < r.1) ∧ (∀ y ∈ ys, r.2 < y.1) := by
  induction ps with
  | nil => exact ⟨[], [], rfl, rfl, by simp, by simp⟩
  | cons p ps ih =>
    rw [reverse_cons] at h
    have hp : p.1 ≤ p.2 := h.1 p (by simp)
    have hps : Separated ps.reverse :=
      ⟨fun x hx => h.1 x (mem_append_left _ hx), (pairwise_append.mp h.2).1⟩
    have hbelow : ∀ x ∈ ps.reverse, x.2 < p.1 := by
      intro x hx
      exact (pairwise_append.mp h.2).2.2 x hx p (by simp)
    by_cases hlt : r.1 < p.1
    · have hrp : r.2 < p.1 := by
        rcases hdisj p mem_cons_self with hd | hd
        · omega
        · exact hd
      obtain ⟨xs, ys, hsplit, hsink, hxs, hys⟩ :=
        ih hps (fun q hq => hdisj q (mem_cons_of_mem _ hq))
      refine ⟨xs, ys ++ [p], ?_, ?_, hxs, ?_⟩
      · rw [reverse_cons, hsplit, append_assoc]
      · rw [sinkLast, if_pos hlt, require_pos hrp, require_pos hp, hsink]
        simp [bind, Except.bind, pure, Except.pure]
      · exact forall_mem_append.mpr ⟨hys, forall_mem_singleton.mpr hrp⟩
    · have hpr : p.2 < r.1 := by
        rcases hdisj p mem_cons_self with hd | hd
        · exact hd
        · omega
      refine ⟨ps.reverse ++ [p], [], by simp, ?_, ?_, by simp⟩
      · rw [sinkLast, if_neg hlt, require_pos hpr, require_pos hr]
        simp
      · refine forall_mem_append.mpr ⟨fun x hx => ?_, forall_mem_singleton.mpr hpr⟩
        have := hbelow x hx
        omega

/-- Inserting a range that is disjoint from all others succeeds, keeps the
ranges separated and adds exactly the new indices. -/
theorem insertLastInOrder_spec (h : Separated ranges) (hr : r.1 ≤ r.2)
    (hdisj : ∀ p ∈ ranges, p.2 < r.1 ∨ r.2 < p.1) :
    ∃ out, insertLastInOrder ranges r = .ok out ∧ Separated out ∧
      (∀ x, x ∈ out ↔ x = r ∨ x ∈ ranges) ∧ used out = used ranges + width r := by
  have hrev : Separated ranges.reverse.reverse := by
    rw [reverse_reverse]
    exact h
  obtain ⟨xs, ys, hsplit, hsink, hxs, hys⟩ :=
    sinkLast_spec hrev hr (fun p hp => hdisj p (mem_reverse.mp hp))
  rw [reverse_reverse] at hsplit
  subst hsplit
  refine ⟨xs ++ r :: ys, ?_, separated_insert h hr hxs hys, ?_, ?_⟩
  · rw [insertLastInOrder, require_pos hr, hsink]
    simp [bind, Except.bind, pure, Except.pure]
  · intro x
    simp only [mem_append, mem_cons]
    tauto
  · rw [used_append, used_append, used_cons]
    omega

/-- The search loop returns an index of the gap it ends in.  The invariant is
that enough indices are left after `afterLastRange` for the ones still to be
skipped. -/
theorem findIndexLoop_spec (available afterLastRange : Nat) (h : Separated ranges)
    (hb : Below ranges maxSize) (hafter : ∀ r ∈ ranges, afterLastRange ≤ r.1)
    (hav : available ≤ index) (hleft : index + used ranges < available +
      (maxSize - afterLastRange)) :
    ∃ i, findIndexLoop index maxSize ranges available afterLastRange = .ok i ∧
      afterLastRange ≤ i ∧ i < maxSize ∧ ¬ Covers ranges i := by
  induction ranges generalizing available afterLastRange with
  | nil =>
    refine ⟨afterLastRange + (index - available), ?_, by omega, by omega, by simp [Covers]⟩
    rw [findIndexLoop, require_pos (by omega), require_pos (by omega), require_pos (by omega)]
  | cons r rs ih =>
    have hr : r.1 ≤ r.2 := h.1 r mem_cons_self
    have hal : afterLastRange ≤ r.1 := hafter r mem_cons_self
    rw [used_cons, width] at hleft
    rw [findIndexLoop]
    by_cases hfound : available + (r.1 - afterLastRange) ≥ index + 1
    · simp only [if_pos hfound]
      refine ⟨afterLastRange + (index - available), require_pos (by omega) _ _,
        by omega, by omega, ?_⟩
      rw [covers_cons]
      rintro (hc | ⟨s, hs, hc⟩)
      · have := hc.1
        omega
      · have := h.head_lt s hs
        have := hc.1
        omega
    · simp only [if_neg hfound]
      obtain ⟨i, hi, hge, hlt, hcov⟩ :=
        ih (available + (r.1 - afterLastRange)) (r.2 + 1) h.tail
          (fun x hx => hb x (mem_cons_of_mem _ hx))
          (fun x hx => h.head_lt x hx) (by omega) (by omega)
      refine ⟨i, ?_, by omega, hlt, ?_⟩
      · rw [require_pos (by omega)]
        exact hi
      · rw [covers_cons]
        rintro (hc | hc)
        · have := hc.2
          omega
        · exact hcov hc

/-- As long as `index` is smaller than the number of free indices, the search
returns a free index of the residency. -/
theorem findIndexInResidency_spec (h : Separated ranges) (hb : Below ranges maxSize)
    (hleft : index + used ranges < maxSize) :
    ∃ i, findIndexInResidency index ranges maxSize = .ok i ∧ i < maxSize ∧ ¬ Covers ranges i := by
  obtain ⟨i, hi, _, hlt, hcov⟩ :=
    findIndexLoop_spec 0 0 h hb (fun _ _ => Nat.zero_le _) (Nat.zero_le index) (by omega)
  refine ⟨i, ?_, hlt, hcov⟩
  rw [findIndexInResidency, require_pos (by omega),
    require_pos (validateRangesInDebug_of_separated h hb (by omega)), hi]

/-- With no unavailable range the search returns its argument. -/
theorem findIndexInResidency_nil (h : index < maxSize) :
    findIndexInResidency index [] maxSize = .ok index := by
  have hv : validateRangesInDebug [] maxSize = true :=
    validateRangesInDebug_of_separated separated_nil (by simp [Below]) (by simp; omega)
  rw [findIndexInResidency, require_pos h, require_pos hv, findIndexLoop,
    require_pos (by omega), require_pos (by omega), require_pos (by omega)]
  simp

/-! ## Servers of a residency -/

/-- The server of the instance at a position of the residency. -/
def serverAt (res : List InstanceID) (i : Nat) : Option Nat :=
  res[i]?.map getServerId

/-- The instances of one server stand next to each other. -/
def Contiguous (res : List InstanceID) : Prop :=
  ∀ i j k, i ≤ j → j ≤ k → k < res.length → serverAt res i = serverAt res k →
    serverAt res j = serverAt res i

instance (res : List InstanceID) : Decidable (Contiguous res) :=
  decidable_of_iff
    (∀ k, k < res.length → ∀ j, j ≤ k → ∀ i, i ≤ j → serverAt res i = serverAt res k →
      serverAt res j = serverAt res i)
    ⟨fun h i j k hij hjk hk => h k hk j hjk i hij, fun h k hk j hjk i hij => h i j k hij hjk hk⟩

/-- The servers that have an instance in the residency. -/
def servers (res : List InstanceID) : Finset Nat :=
  (res.map getServerId).toFinset

theorem servers_mono {l : List InstanceID} (h : l ⊆ res) : servers l ⊆ servers res := by
  intro s hs
  rw [servers, mem_toFinset] at hs ⊢
  exact map_subset _ h hs

/-- The scanned run consists of instances of the server and is followed by
another server or by the end. -/
theorem sameServerRun_spec (s : Nat) (l : List InstanceID) :
    (∀ k, k < sameServerRun s l → serverAt l k = some s) ∧
      serverAt l (sameServerRun s l) ≠ some s := by
  induction l with
  | nil => simp [sameServerRun, serverAt]
  | cons iid l ih =>
    by_cases h : getServerId iid = s
    · rw [sameServerRun, if_pos h]
      refine ⟨?_, ih.2⟩
      intro k hk
      cases k with
      | zero => simp [serverAt, h]
      | succ k => exact ih.1 k (by omega)
    · rw [sameServerRun, if_neg h]
      refine ⟨by simp, ?_⟩
      simpa [serverAt] using h

theorem sameServerRun_le (s : Nat) (l : List InstanceID) : sameServerRun s l ≤ l.length := by
  induction l with
  | nil => simp [sameServerRun]
  | cons iid l ih =>
    rw [sameServerRun]
    split
    · simp only [length_cons]
      omega
    · simp

theorem serverAt_drop (res : List InstanceID) (n k : Nat) :
    serverAt (res.drop n) k = serverAt res (n + k) := by
  simp [serverAt]

theorem serverAt_take_reverse (res : List InstanceID) {k : Nat} (hn : n ≤ res.length) (hk : k < n) :
    serverAt (res.take n).reverse k = serverAt res (n - 1 - k) := by
  have hlen : (res.take n).length = n := by simp [hn]
  unfold serverAt
  rw [getElem?_reverse (by omega), hlen, getElem?_take_of_lt (by omega)]

/-- The two scans around position `i` find exactly the indices of its server. -/
theorem serverRange_spec (hres : Contiguous res) (hi : i < res.length)
    (hs : serverAt res i = some s) (j : Nat) :
    (i - sameServerRun s (res.take i).reverse ≤ j ∧
        j < i + 1 + sameServerRun s (res.drop (i + 1))) ↔ serverAt res j = some s := by
  obtain ⟨hup, hupEnd⟩ := sameServerRun_spec s (res.drop (i + 1))
  obtain ⟨hdown, hdownEnd⟩ := sameServerRun_spec s (res.take i).reverse
  constructor
  · rintro ⟨hlo, hhi⟩
    rcases Nat.lt_trichotomy j i with hlt | rfl | hgt
    · have h := hdown (i - 1 - j) (by omega)
      rw [serverAt_take_reverse res (by omega) (by omega)] at h
      rwa [show i - 1 - (i - 1 - j) = j by omega] at h
    · exact hs
    · have h := hup (j - (i + 1)) (by omega)
      rw [serverAt_drop] at h
      rwa [show i + 1 + (j - (i + 1)) = j by omega] at h
  · intro hj
    have hjlen : j < res.length := by
      by_contra hge
      simp [serverAt, getElem?_eq_none (Nat.le_of_not_lt hge)] at hj
    refine ⟨?_, ?_⟩
    · by_contra hlo
      have hrun : sameServerRun s (res.take i).reverse < i := by omega
      apply hdownEnd
      rw [serverAt_take_reverse res (by omega) hrun, ← hj]
      exact hres j _ i (by omega) (by omega) hi (hj.trans hs.symm)
    · by_contra hhi
      apply hupEnd
      rw [serverAt_drop, ← hs]
      exact hres i _ j (by omega) (by omega) hjlen (hs.trans hj.symm)

/-! ## One placement step -/

variable (res)

/-- The unavailable ranges are exactly the indices of the servers that already
hold a copy, and no server holds two. -/
structure PlacementInv (p : Placement) : Prop where
  separated : Separated p.unavailableRanges
  below : Below p.unavailableRanges res.length
  covers_iff : ∀ i, i < res.length →
    (Covers p.unavailableRanges i ↔ ∃ iid ∈ p.replicas, serverAt res i = some (getServerId iid))
  nodup : (p.replicas.map getServerId).Nodup
  mem_res : ∀ iid ∈ p.replicas, iid ∈ res

theorem placementInv_empty : PlacementInv res ⟨[], []⟩ where
  separated := separated_nil
  below := by simp [Below]
  covers_iff := by simp [Covers]
  nodup := by simp
  mem_res := by simp

/-- Number of instances on servers without a copy. -/
def remaining (p : Placement) : Nat :=
  res.length - used p.unavailableRanges

variable {res}

/-- Once a free position is found, placing a copy there succeeds, keeps the
invariant and takes all instances of its server out of the remaining ones. -/
theorem computeNextReplicaTarget_at (hres : Contiguous res) (hp : PlacementInv res p)
    (hfind : findIndexInResidency targetIndex p.unavailableRanges res.length = .ok i)
    (hi : i < res.length) (hcov : ¬ Covers p.unavailableRanges i)
    (hlen : p.replicas.length < MAX_REDUNDANCY + 1) :
    ∃ p' n, computeNextReplicaTarget res targetIndex p = .ok (p', n) ∧
      PlacementInv res p' ∧ p'.replicas = p.replicas ++ [res.get ⟨i, hi⟩] ∧
      used p.unavailableRanges + n = used p'.unavailableRanges := by
  obtain ⟨iid, hiid⟩ : ∃ iid, iid = res.get ⟨i, hi⟩ := ⟨_, rfl⟩
  obtain ⟨s, hsdef⟩ : ∃ s, s = getServerId iid := ⟨_, rfl⟩
  have hget : res[i]? = some iid := by
    rw [getElem?_eq_getElem, hiid]
    rfl
  have hs : serverAt res i = some s := by simp [serverAt, hget, hsdef]
  obtain ⟨start, hstart⟩ : ∃ start, start = i - sameServerRun s (res.take i).reverse := ⟨_, rfl⟩
  obtain ⟨stop, hstop⟩ : ∃ stop, stop = i + 1 + sameServerRun s (res.drop (i + 1)) := ⟨_, rfl⟩
  have hrange : ∀ j, (start ≤ j ∧ j < stop) ↔ serverAt res j = some s := by
    intro j
    rw [hstart, hstop]
    exact serverRange_spec hres hi hs j
  have hstopLe : stop ≤ res.length := by
    have := sameServerRun_le s (res.drop (i + 1))
    rw [length_drop] at this
    omega
  -- no earlier replica sits on this server, or index `i` would be covered
  have hnew : ∀ x ∈ p.replicas, getServerId x ≠ s := by
    intro x hx heq
    exact hcov ((hp.covers_iff i hi).mpr ⟨x, hx, by rw [heq]; exact hs⟩)
  have hdisj : ∀ r ∈ p.unavailableRanges, r.2 < start ∨ stop - 1 < r.1 := by
    intro r hr
    by_contra hboth
    push Not at hboth
    have hval : r.1 ≤ r.2 := hp.separated.1 r hr
    have hmeet : ∃ j, start ≤ j ∧ j < stop ∧ Contains r j := by
      refine ⟨max start r.1, by omega, by omega, by omega, by omega⟩
    obtain ⟨j, hj1, hj2, hj3⟩ := hmeet
    obtain ⟨x, hx, hxj⟩ := (hp.covers_iff j (by omega)).mp ⟨r, hr, hj3⟩
    rw [(hrange j).mp ⟨hj1, hj2⟩] at hxj
    exact hnew x hx (Option.some.inj hxj).symm
  obtain ⟨out, hins, hsep, hmem, hused⟩ :=
    insertLastInOrder_spec (r := (start, stop - 1)) hp.separated (by omega) hdisj
  have hbelow : Below out res.length := by
    intro r hr
    rcases (hmem r).mp hr with rfl | hr
    · omega
    · exact hp.below r hr
  have hvalid : validateRangesInDebug out (res.length + 1) = true :=
    validateRangesInDebug_of_separated hsep
      (fun r hr => Nat.lt_succ_of_lt (hbelow r hr))
      (Nat.lt_succ_of_le (used_le hsep hbelow))
  refine ⟨⟨p.replicas ++ [iid], out⟩, stop - start, ?_, ⟨hsep, hbelow, ?_, ?_, ?_⟩, ?_, ?_⟩
  · have hphys : getPhysicalInstanceAt res i = .ok iid := by
      rw [getPhysicalInstanceAt, hget]
    simp only [computeNextReplicaTarget, hfind, bind, Except.bind]
    rw [require_pos hi]
    simp only [hphys, ← hsdef, ← hstart, ← hstop]
    rw [require_pos hlen, require_pos (by omega : stop > start)]
    simp only [hins]
    rw [require_pos hvalid]
    rfl
  · intro j hj
    have hcons : Covers out j ↔ Contains (start, stop - 1) j ∨ Covers p.unavailableRanges j := by
      simp [Covers, hmem]
    have hcontains : Contains (start, stop - 1) j ↔ serverAt res j = some (getServerId iid) := by
      rw [← hsdef, ← hrange]
      simp only [Contains]
      omega
    rw [hcons, hcontains, hp.covers_iff j hj]
    simp only [mem_append, mem_singleton, or_and_right, exists_or, exists_eq_left]
    exact or_comm
  · rw [map_append, nodup_append]
    refine ⟨hp.nodup, by simp, ?_⟩
    intro a ha b hb
    obtain ⟨x, hx, rfl⟩ := mem_map.mp ha
    rw [map_singleton, mem_singleton] at hb
    rw [hb, ← hsdef]
    exact hnew x hx
  · exact forall_mem_append.mpr ⟨hp.mem_res, forall_mem_singleton.mpr (hiid ▸ get_mem res _)⟩
  · rw [hiid]
  · rw [hused, width]
    omega

section

variable (hp : PlacementInv res p)

include hp

/-- The servers of the replicas are among those of the residency. -/
theorem PlacementInv.servers_subset : (p.replicas.map getServerId).toFinset ⊆ servers res :=
  servers_mono hp.mem_res

theorem PlacementInv.card_servers :
    (p.replicas.map getServerId).toFinset.card = p.replicas.length := by
  rw [toFinset_card_of_nodup hp.nodup, length_map]

/-- There are never more copies than servers. -/
theorem PlacementInv.length_le : p.replicas.length ≤ (servers res).card := by
  rw [← hp.card_servers]
  exact Finset.card_le_card hp.servers_subset

/-- Instances remain exactly as long as some server has no copy. -/
theorem PlacementInv.remaining_pos_iff :
    0 < remaining res p ↔ p.replicas.length < (servers res).card := by
  have hcover : ∀ i (hi : i < res.length), Covers p.unavailableRanges i ↔
      getServerId res[i] ∈ (p.replicas.map getServerId).toFinset := by
    intro i hi
    rw [hp.covers_iff i hi]
    simp [serverAt, hi, eq_comm]
  calc 0 < remaining res p ↔ ∃ i, i < res.length ∧ ¬ Covers p.unavailableRanges i := by
        rw [exists_uncovered_iff hp.separated hp.below, remaining]
        omega
    _ ↔ ¬ servers res ⊆ (p.replicas.map getServerId).toFinset := by
        rw [Finset.not_subset]
        constructor
        · rintro ⟨i, hi, hcov⟩
          exact ⟨_, mem_toFinset.mpr (mem_map_of_mem (getElem_mem hi)), mt (hcover i hi).mpr hcov⟩
        · rintro ⟨s, hs, hnot⟩
          obtain ⟨iid, hiid, rfl⟩ := mem_map.mp (mem_toFinset.mp hs)
          obtain ⟨i, hi, rfl⟩ := getElem_of_mem hiid
          exact ⟨i, hi, mt (hcover i hi).mp hnot⟩
    _ ↔ p.replicas.length < (servers res).card := by
        rw [← hp.card_servers]
        exact ⟨fun h => Finset.card_lt_card ⟨hp.servers_subset, h⟩,
          fun hlt h => hlt.not_ge (Finset.card_le_card h)⟩

end

/-- One placement step: a target below the number of remaining instances gives
one more replica on a new server. -/
theorem computeNextReplicaTarget_spec (hres : Contiguous res) (hp : PlacementInv res p)
    (htarget : targetIndex < remaining res p) (hlen : p.replicas.length < MAX_REDUNDANCY + 1) :
    ∃ p' n iid, computeNextReplicaTarget res targetIndex p = .ok (p', n) ∧
      PlacementInv res p' ∧ p'.replicas = p.replicas ++ [iid] ∧
      n ≤ remaining res p ∧ remaining res p - n = remaining res p' := by
  unfold remaining at htarget ⊢
  obtain ⟨i, hfind, hi, hcov⟩ :=
    findIndexInResidency_spec hp.separated hp.below (show targetIndex + _ < _ by omega)
  obtain ⟨p', n, hok, hp', hrep, hused⟩ := computeNextReplicaTarget_at hres hp hfind hi hcov hlen
  have hle : used p'.unavailableRanges ≤ res.length := used_le hp'.separated hp'.below
  exact ⟨p', n, _, hok, hp', hrep, by omega, by omega⟩

/-! ## The placement loop -/

/-- While instances remain, a round of the loop maps the hash to one of them and
places the next copy there. -/
theorem replicaLoop_succ (res : List InstanceID) (redundancy primary todo : Nat) (p : Placement)
    (hn : 0 < n) :
    ∃ targetIndex, targetIndex < n ∧
      replicaLoop res redundancy primary (todo + 1) p n = (do
          let (p', nUnavailable) ← computeNextReplicaTarget res targetIndex p
          require (nUnavailable ≤ n) (.assertion "nUnavailable <= nInstancesRemaining") <|
            replicaLoop res redundancy primary todo p' (n - nUnavailable)) := by
  rw [replicaLoop, if_neg (by omega)]
  exact ⟨_, Nat.mod_lt _ hn, rfl⟩

/-- The loop places a copy in each round as long as there is a server without one. -/
theorem replicaLoop_spec (primary : Nat) (hres : Contiguous res) (hr : redundancy ≤ MAX_REDUNDANCY)
    (hp : PlacementInv res p) (htodo : p.replicas.length + todo = redundancy + 1) :
    (redundancy + 1 ≤ (servers res).card →
      ∃ p', replicaLoop res redundancy primary todo p (remaining res p) = .ok p' ∧
        PlacementInv res p' ∧ p'.replicas.length = redundancy + 1 ∧
        p.replicas <+: p'.replicas) ∧
    ((servers res).card < redundancy + 1 →
      ∃ placed, replicaLoop res redundancy primary todo p (remaining res p) =
        .error (.invalidRedundancy redundancy placed MAX_REDUNDANCY)) := by
  induction todo generalizing p with
  | zero =>
    have := hp.length_le
    exact ⟨fun _ => ⟨p, rfl, hp, htodo, prefix_rfl⟩, fun hfew => by omega⟩
  | succ todo ih =>
    by_cases hpos : 0 < remaining res p
    · obtain ⟨target, htarget, hround⟩ := replicaLoop_succ res redundancy primary todo p hpos
      obtain ⟨p', n, iid, hok, hp', hrep, hn, hrem⟩ :=
        computeNextReplicaTarget_spec hres hp htarget (by omega)
      have hstep : replicaLoop res redundancy primary (todo + 1) p (remaining res p) =
          replicaLoop res redundancy primary todo p' (remaining res p') := by
        rw [hround]
        simp only [hok, bind, Except.bind]
        rw [require_pos hn, hrem]
      rw [hstep]
      refine ⟨fun henough => ?_, (ih hp' (by simp [hrep]; omega)).2⟩
      obtain ⟨p'', hloop, hp'', hlen, hpre⟩ := (ih hp' (by simp [hrep]; omega)).1 henough
      exact ⟨p'', hloop, hp'', hlen, (hrep ▸ prefix_append _ _).trans hpre⟩
    · refine ⟨fun henough => absurd (hp.remaining_pos_iff.mpr (by omega)) hpos, fun _ => ?_⟩
      rw [replicaLoop, if_pos (by omega)]
      exact ⟨_, rfl⟩

/-- Whatever the residency, a step that succeeds adds one of its instances. -/
theorem computeNextReplicaTarget_ok (h : computeNextReplicaTarget res targetIndex p = .ok (p', n)) :
    ∃ i iid, findIndexInResidency targetIndex p.unavailableRanges res.length = .ok i ∧
      res[i]? = some iid ∧ p'.replicas = p.replicas ++ [iid] := by
  simp only [computeNextReplicaTarget, bind_eq_ok, require_eq_ok] at h
  obtain ⟨i, hfind, hi, iid, hget, _, _, ranges, _, _, hret⟩ := h
  refine ⟨i, iid, hfind, ?_, ?_⟩
  · rw [getPhysicalInstanceAt] at hget
    split at hget
    · rename_i hres
      rw [hres, Except.ok.inj hget]
    · cases hget
  · cases Except.ok.inj hret
    rfl

theorem replicaLoop_replicas (h : replicaLoop res redundancy primary todo p n = .ok p') :
    ∃ added, p'.replicas = p.replicas ++ added ∧ added.length = todo ∧ ∀ iid ∈ added,
      iid ∈ res := by
  induction todo generalizing p n with
  | zero =>
    cases Except.ok.inj h
    exact ⟨[], by simp⟩
  | succ todo ih =>
    by_cases hn : 0 < n
    · obtain ⟨target, _, hround⟩ := replicaLoop_succ res redundancy primary todo p hn
      simp only [hround, bind_eq_ok, require_eq_ok] at h
      obtain ⟨⟨p₁, used₁⟩, hstep, _, hrest⟩ := h
      obtain ⟨i, iid, _, hget, hrep⟩ := computeNextReplicaTarget_ok hstep
      obtain ⟨added, hadded, hlen, hmem⟩ := ih hrest
      refine ⟨iid :: added, by simp [hadded, hrep], by simp [hlen], ?_⟩
      exact forall_mem_cons.mpr ⟨mem_of_getElem? hget, hmem⟩
    · rw [replicaLoop, if_pos (by omega)] at h
      cases h

/-- Whatever the residency, a placement that succeeds lists `redundancy + 1` of
its instances, the primary first. -/
theorem getReplicasInstanceId_ok {replicas : List InstanceID}
    (h : getReplicasInstanceId res redundancy primary = .ok replicas) :
    ∃ iid rest, replicas = iid :: rest ∧ res[primary]? = some iid ∧ rest.length = redundancy ∧
      ∀ x ∈ replicas, x ∈ res := by
  rw [getReplicasInstanceId] at h
  split at h
  · cases h
  · simp only [bind_eq_ok, require_eq_ok] at h
    obtain ⟨⟨p, n⟩, hstep, _, p', hloop, _, hret⟩ := h
    obtain ⟨i, iid, hfind, hget, hrep⟩ := computeNextReplicaTarget_ok hstep
    obtain ⟨added, hadded, hlen, hmem⟩ := replicaLoop_replicas hloop
    have hprimary : primary < res.length := by
      rw [findIndexInResidency, require_eq_ok] at hfind
      exact hfind.1
    rw [findIndexInResidency_nil hprimary] at hfind
    cases Except.ok.inj hfind
    cases Except.ok.inj hret
    refine ⟨iid, added, by simp [hadded, hrep], hget, hlen, ?_⟩
    intro x hx
    simp only [hadded, hrep, nil_append, singleton_append, mem_cons] at hx
    rcases hx with rfl | hx
    · exact mem_of_getElem? hget
    · exact hmem x hx

/-- The first step places the copy at the primary position itself. -/
theorem computeNextReplicaTarget_primary (hres : Contiguous res) (hprimary : primary < res.length) :
    ∃ p n, computeNextReplicaTarget res primary ⟨[], []⟩ = .ok (p, n) ∧ PlacementInv res p ∧
      p.replicas = [res.get ⟨primary, hprimary⟩] ∧ n ≤ res.length ∧
      res.length - n = remaining res p := by
  obtain ⟨p, n, hok, hp, hrep, hused⟩ :=
    computeNextReplicaTarget_at hres (placementInv_empty res)
      (findIndexInResidency_nil hprimary) hprimary (by simp [Covers]) (by simp)
  have hle : used p.unavailableRanges ≤ res.length := used_le hp.separated hp.below
  simp only [used_nil, Nat.zero_add] at hused
  exact ⟨p, n, hok, hp, hrep, by omega, by rw [hused, remaining]⟩

theorem card_servers_le (res : List InstanceID) : (servers res).card ≤ res.length := by
  have h := toFinset_card_le (res.map getServerId)
  rwa [length_map] at h

/-- With enough servers every copy is placed. -/
theorem getReplicasInstanceId_succeeds (hres : Contiguous res) (hr : redundancy ≤ MAX_REDUNDANCY)
    (hprimary : primary < res.length) (henough : redundancy + 1 ≤ (servers res).card) :
    ∃ replicas, getReplicasInstanceId res redundancy primary = .ok replicas ∧
      replicas.length = redundancy + 1 ∧ (∀ iid ∈ replicas, iid ∈ res) ∧
      (replicas.map getServerId).Nodup ∧ replicas[0]? = res[primary]? := by
  obtain ⟨p, n, hok, hp, hrep, hn, hrem⟩ := computeNextReplicaTarget_primary hres hprimary
  have htodo : p.replicas.length + redundancy = redundancy + 1 := by
    simp [hrep]
    omega
  have hsize := card_servers_le res
  obtain ⟨p', hloop, hp', hlen, hpre⟩ :=
    (replicaLoop_spec primary hres hr hp htodo).1 henough
  refine ⟨p'.replicas, ?_, hlen, hp'.mem_res, hp'.nodup, ?_⟩
  · rw [getReplicasInstanceId, if_neg (by omega)]
    simp only [hok, bind, Except.bind]
    rw [require_pos hn, hrem, hloop]
    simp only
    rw [require_pos hp'.nodup]
    rfl
  · obtain ⟨rest, hrest⟩ := hpre
    rw [← hrest, hrep]
    simp

/-- Replica placement.  On a residency whose servers are contiguous, with a legal
redundancy and a primary position inside the residency, the placement fills the
replicas with instances of the residency on pairwise different servers, the
primary first, if there are enough servers, and raises the invalid-redundancy
error if there are not. -/
theorem getReplicasInstanceId_placement {res : List InstanceID} (hres : Contiguous res)
    {redundancy primary : Nat} (hr : redundancy ≤ MAX_REDUNDANCY)
    (hprimary : primary < res.length) :
    (redundancy + 1 ≤ (servers res).card →
      ∃ replicas, getReplicasInstanceId res redundancy primary = .ok replicas ∧
        replicas.length = redundancy + 1 ∧ (∀ iid ∈ replicas, iid ∈ res) ∧
        (replicas.map getServerId).Nodup ∧ replicas[0]? = res[primary]?) ∧
    ((servers res).card < redundancy + 1 →
      ∃ n, getReplicasInstanceId res redundancy primary =
        .error (.invalidRedundancy redundancy n MAX_REDUNDANCY)) := by
  constructor
  · exact getReplicasInstanceId_succeeds hres hr hprimary
  · intro hfew
    obtain ⟨p, n, hok, hp, hrep, hn, hrem⟩ := computeNextReplicaTarget_primary hres hprimary
    have htodo : p.replicas.length + redundancy = redundancy + 1 := by
      simp [hrep]
      omega
    rw [getReplicasInstanceId]
    by_cases hsize : redundancy > MAX_REDUNDANCY ∨ res.length ≤ redundancy
    · rw [if_pos hsize]
      exact ⟨_, rfl⟩
    · rw [if_neg hsize]
      obtain ⟨placed, hloop⟩ := (replicaLoop_spec primary hres hr hp htodo).2 hfew
      refine ⟨placed, ?_⟩
      simp only [hok, bind, Except.bind]
      rw [require_pos hn, hrem, hloop]

/-- Three servers with two, two and one instances hold three copies but not four. -/
theorem getReplicasInstanceId_three_servers :
    (∃ replicas,
      getReplicasInstanceId [0, 1, 4294967296, 4294967297, 8589934592] 2 3 = .ok replicas ∧
        replicas.length = 3 ∧
        (∀ iid ∈ replicas, iid ∈ [0, 1, 4294967296, 4294967297, 8589934592]) ∧
        (replicas.map getServerId).Nodup ∧ replicas[0]? = some 4294967297) ∧
    ∃ n, getReplicasInstanceId [0, 1, 4294967296, 4294967297, 8589934592] 3 3 =
      .error (.invalidRedundancy 3 n 8) :=
  ⟨(getReplicasInstanceId_placement (by decide +kernel) (by decide) (by decide)).1
      (by decide +kernel),
    (getReplicasInstanceId_placement (by decide +kernel) (by decide) (by decide)).2
      (by decide +kernel)⟩

end SciDB.Replication
