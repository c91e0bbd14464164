import SciDB.Replication.Responsibility

/-!
# Reading with dead instances

`Query::isDistributionDegraded` of `src/query/Query.cpp` decides whether the instances of
an array that are alive still hold all of it.  It counts the servers that have a dead
instance with a `ServerCounter`, which only notices a change of server along a list.

Main results:

- Theorem {lit}`serverCount_eq_card`: on contiguous servers the counter is exact.
- Theorem {lit}`isDistributionDegraded_eq`: the decision depends on the servers with a dead
  instance only.
- Theorem {lit}`isDistributionDegradedForRead_safe`: a read that is admitted finds a copy of
  every chunk.
- Theorem {lit}`admitted_write_survives`: a chunk survives these failures.
-/

namespace SciDB.Replication

open List

/-! ## The decision -/

/-- The membership that the coordinator's liveness belongs to.  Both are kept in ordered
sets of instances. -/
structure ClusterView extends InstanceLiveness where
  membership : List InstanceID
  membership_sorted : membership.Pairwise (· < ·)
  dead_sorted : deadInstances.Pairwise (· < ·)
  dead_mem : ∀ iid ∈ deadInstances, iid ∈ membership

inductive QuorumFault
  /-- a failed `SCIDB_ASSERT` -/
  | assertion (text : String)
  /-- `SCIDB_LE_NO_QUORUM` -/
  | noQuorum
deriving DecidableEq, Repr

/-- `isDistributionDegraded`, with the test that a debug build makes first.  One counter of
its loop sees the whole residency, the other one the instances that are not alive. -/
def isDistributionDegraded (view : ClusterView) (res : List InstanceID) (redundancy : Nat) :
    Except QuorumFault Bool :=
  require (serverCount view.membership ≥ serverCount view.deadInstances)
    (.assertion "scT.getCount() >= scD.getCount()") <|
  if res = view.liveInstances then .ok false
  else
    let numLiveInRes := res.countP (· ∈ view.liveInstances)
    let numResidencyServers := serverCount res
    let numLiveServersInResidency :=
      numResidencyServers - serverCount (res.filter (· ∉ view.liveInstances))
    if numLiveInRes = res.length then .ok false
    else
      require (numLiveInRes < res.length) (.assertion "numLiveInRes < residencySize") <|
      if numLiveServersInResidency + redundancy < numResidencyServers then .error .noQuorum
      else .ok true

/-- A read may use the redundant copies. -/
def isDistributionDegradedForRead (view : ClusterView) (res : List InstanceID)
    (redundancy : Nat) : Except QuorumFault Bool :=
  isDistributionDegraded view res redundancy

/-! ## Counting servers -/

variable {res l : List InstanceID} {view : ClusterView} {redundancy : Nat} {iid : InstanceID}

theorem Contiguous.sublist (hres : Contiguous res) (h : l.Sublist res) : Contiguous l := by
  obtain ⟨f, hf⟩ := sublist_iff_exists_orderEmbedding_getElem?_eq.mp h
  have hat : ∀ i, serverAt l i = serverAt res (f i) := fun i => by
    rw [serverAt, serverAt, hf]
  intro i j k hij hjk hk
  rw [hat, hat, hat]
  refine hres _ _ _ (f.monotone hij) (f.monotone hjk) ?_
  by_contra hlt
  have hnone := hf k
  rw [getElem?_eq_none (not_lt.mp hlt), getElem?_eq_none_iff] at hnone
  omega

theorem getServerId_mono {a b : InstanceID} (h : a ≤ b) : getServerId a ≤ getServerId b := by
  rw [getServerId, getServerId, UInt64.toNat_shiftRight, UInt64.toNat_shiftRight,
    Nat.shiftRight_eq_div_pow, Nat.shiftRight_eq_div_pow]
  exact Nat.div_le_div_right (UInt64.le_iff_toNat_le.mp h)

/-- In an ordered list the servers are contiguous. -/
theorem contiguous_of_sorted (h : l.Pairwise (· < ·)) : Contiguous l := by
  have hle : ∀ {a b : Nat} {x y}, a ≤ b → l[a]? = some x → l[b]? = some y →
      getServerId x ≤ getServerId y := by
    intro a b x y hab hx hy
    obtain ⟨ha, rfl⟩ := List.getElem?_eq_some_iff.mp hx
    obtain ⟨hb, rfl⟩ := List.getElem?_eq_some_iff.mp hy
    rcases hab.eq_or_lt with rfl | hlt
    · exact le_rfl
    · exact getServerId_mono (UInt64.le_of_lt (pairwise_iff_getElem.mp h a b ha hb hlt))
  intro i j k hij hjk hk heq
  have hz := getElem?_eq_getElem hk
  have hy := getElem?_eq_getElem (hjk.trans_lt hk)
  have hx := getElem?_eq_getElem (hij.trans_lt (hjk.trans_lt hk))
  rw [serverAt, serverAt, hx, hz, Option.map_some, Option.map_some, Option.some.injEq] at heq
  rw [serverAt, serverAt, hx, hy, Option.map_some, Option.map_some, Option.some.injEq]
  exact le_antisymm ((hle hjk hy hz).trans heq.ge) (hle hij hx hy)

/-- The state of the counter after a list. -/
theorem foldl_serverCount (res : List InstanceID) :
    res.foldl (fun (st : Nat × Option Nat) i =>
        if st.2 = some (getServerId i) then st else (st.1 + 1, some (getServerId i)))
      (0, none) = (serverCount res, res.getLast?.map getServerId) := by
  refine Prod.ext rfl ?_
  induction res using List.reverseRecOn with
  | nil => rfl
  | append_singleton res iid ih =>
    rw [foldl_concat, getLast?_concat]
    split
    · assumption
    · rfl

theorem serverCount_concat (res : List InstanceID) (iid : InstanceID) :
    serverCount (res ++ [iid]) = if res.getLast?.map getServerId = some (getServerId iid)
      then serverCount res else serverCount res + 1 := by
  rw [serverCount, foldl_concat, foldl_serverCount]
  split <;> rfl

/-- The counter sees each server once, as the instances of a server are contiguous. -/
theorem serverCount_eq_card (hres : Contiguous res) : serverCount res = (servers res).card := by
  induction res using List.reverseRecOn with
  | nil => rfl
  | append_singleton res iid ih =>
    have hservers : servers (res ++ [iid]) = insert (getServerId iid) (servers res) := by
      ext s
      simp [servers]
    rw [serverCount_concat, ih (hres.sublist (sublist_append_left _ _)), hservers]
    split
    · rename_i hlast
      rw [Finset.insert_eq_of_mem]
      obtain ⟨last, hmem, hserver⟩ := Option.map_eq_some_iff.mp hlast
      rw [servers, mem_toFinset, ← hserver]
      exact mem_map_of_mem (mem_of_getLast? hmem)
    · rename_i hlast
      rw [Finset.card_insert_of_notMem]
      intro hmem
      obtain ⟨x, hx, hserver⟩ := mem_map.mp (mem_toFinset.mp hmem)
      obtain ⟨i, hi, rfl⟩ := getElem_of_mem hx
      have hseen : serverAt res i = some (getServerId iid) := by simp [serverAt, hi, hserver]
      -- the server was seen before, so it is the one of the last instance
      have hnew : serverAt (res ++ [iid]) res.length = some (getServerId iid) := by
        simp [serverAt]
      have hold : ∀ j, j < res.length → serverAt (res ++ [iid]) j = serverAt res j :=
        fun j hj => by rw [serverAt, serverAt, getElem?_append_left hj]
      have hsame := hres i (res.length - 1) res.length (by omega) (by omega) (by simp)
        (by rw [hold i hi, hseen, hnew])
      rw [hold _ (by omega), hold i hi, hseen, serverAt, ← getLast?_eq_getElem?] at hsame
      exact hlast hsame

/-! ## Servers with dead instances -/

/-- The servers of a residency that have a dead instance. -/
def deadServers (view : ClusterView) (res : List InstanceID) : Finset Nat :=
  servers (res.filter fun iid => isPhysicalInstanceDead view.toInstanceLiveness iid)

theorem isPhysicalInstanceDead_eq (liveness : InstanceLiveness) (iid : InstanceID) :
    isPhysicalInstanceDead liveness iid = decide (iid ∉ liveness.liveInstances) := by
  rw [isPhysicalInstanceDead, InstanceLiveness.find]
  by_cases hlive : iid ∈ liveness.liveInstances
  · simp [hlive]
  · by_cases hdead : iid ∈ liveness.deadInstances <;> simp [hlive, hdead]

theorem serverCount_dead_le : serverCount view.deadInstances ≤ serverCount view.membership := by
  rw [serverCount_eq_card (contiguous_of_sorted view.dead_sorted),
    serverCount_eq_card (contiguous_of_sorted view.membership_sorted)]
  exact Finset.card_le_card (servers_mono view.dead_mem)

/-- The read is refused if too many servers have a dead instance, and is degraded if an
instance of the residency is dead. -/
theorem isDistributionDegraded_eq (hres : Contiguous res) :
    isDistributionDegraded view res redundancy =
      if redundancy < (deadServers view res).card then .error .noQuorum
      else .ok (decide (∃ iid ∈ res, isPhysicalInstanceDead view.toInstanceLiveness
        iid = true)) := by
  have hlive : (∀ iid ∈ res, iid ∈ view.liveInstances) → (deadServers view res).card = 0 ∧
      ¬∃ iid ∈ res, isPhysicalInstanceDead view.toInstanceLiveness iid = true := by
    intro hall
    have hnone : ∀ iid ∈ res, ¬isPhysicalInstanceDead view.toInstanceLiveness iid = true := by
      intro iid hiid
      simp [isPhysicalInstanceDead_eq, hall iid hiid]
    refine ⟨?_, fun ⟨iid, hiid, hdead⟩ => hnone iid hiid hdead⟩
    rw [deadServers, filter_eq_nil_iff.mpr hnone]
    rfl
  have hcount : serverCount (res.filter (· ∉ view.liveInstances)) =
    (deadServers view res).card := by
    rw [serverCount_eq_card (hres.sublist filter_sublist), deadServers]
    simp [isPhysicalInstanceDead_eq]
  have hle : (deadServers view res).card ≤ (servers res).card :=
    Finset.card_le_card (servers_mono filter_sublist.subset)
  rw [isDistributionDegraded, require_pos serverCount_dead_le]
  split
  · rename_i heq
    obtain ⟨hcard, hnone⟩ := hlive (fun iid hiid => heq ▸ hiid)
    simp [hcard, hnone]
  · dsimp only
    split
    · rename_i hall
      obtain ⟨hcard, hnone⟩ := hlive (by simpa using countP_eq_length.mp hall)
      simp [hcard, hnone]
    · rename_i hsome
      have hdead : ∃ iid ∈ res, isPhysicalInstanceDead view.toInstanceLiveness iid = true := by
        simpa [isPhysicalInstanceDead_eq] using hsome
      rw [require_pos (lt_of_le_of_ne countP_le_length hsome), serverCount_eq_card hres,
        decide_eq_true hdead]
      exact if_congr (by omega) rfl rfl

/-! ## Copies that are alive -/

/-- A chunk has copies on more servers than have a dead instance. -/
theorem exists_live_replica {replicas : List InstanceID}
    (hdead : (deadServers view res).card ≤ redundancy) (hlen : replicas.length = redundancy + 1)
    (hmem : ∀ iid ∈ replicas, iid ∈ res) (hnodup : (replicas.map getServerId).Nodup) :
    ∃ iid ∈ replicas, isPhysicalInstanceDead view.toInstanceLiveness iid = false := by
  by_contra hall
  simp only [not_exists, not_and, Bool.not_eq_false] at hall
  have hsub : servers replicas ⊆ deadServers view res :=
    servers_mono fun iid hiid => mem_filter.mpr ⟨hmem iid hiid, hall iid hiid⟩
  have hcard := Finset.card_le_card hsub
  rw [servers, toFinset_card_of_nodup hnodup, length_map] at hcard
  omega

/-- Degraded reads.  A read is admitted as not degraded only if all instances of the
residency are alive, it is refused exactly if more servers than there are redundant copies
have a dead instance, and if it is admitted every chunk that can be placed has one of its
copies on a live instance. -/
theorem isDistributionDegradedForRead_safe (view : ClusterView) {res : List InstanceID}
    (hres : Contiguous res) {redundancy : Nat} (henough : redundancy + 1 ≤ (servers res).card) :
    (isDistributionDegradedForRead view res redundancy = .ok false →
      ∀ iid ∈ res, isPhysicalInstanceDead view.toInstanceLiveness iid = false) ∧
    (∀ fault, isDistributionDegradedForRead view res redundancy = .error fault ↔
      fault = .noQuorum ∧ redundancy < (deadServers view res).card) ∧
    ∀ degraded, isDistributionDegradedForRead view res redundancy = .ok degraded →
      ∀ primary < res.length,
        (redundancy ≤ MAX_REDUNDANCY →
          ∃ replicas, getReplicasInstanceId res redundancy primary = .ok replicas) ∧
        ∀ replicas, getReplicasInstanceId res redundancy primary = .ok replicas →
          replicas.length = redundancy + 1 ∧
          ∃ iid ∈ replicas, isPhysicalInstanceDead view.toInstanceLiveness iid = false := by
  rw [isDistributionDegradedForRead, isDistributionDegraded_eq hres]
  by_cases hfew : redundancy < (deadServers view res).card
  · rw [if_pos hfew]
    refine ⟨nofun, fun fault => ?_, nofun⟩
    rw [Except.error.injEq, eq_comm]
    exact (and_iff_left hfew).symm
  · rw [if_neg hfew]
    refine ⟨by simp, by simp [hfew], ?_⟩
    intro degraded _ primary hprimary
    have hplaced := fun hr : redundancy ≤ MAX_REDUNDANCY =>
      getReplicasInstanceId_succeeds hres hr hprimary henough
    refine ⟨fun hr => ?_, fun replicas hok => ?_⟩
    · obtain ⟨replicas, hok, -⟩ := hplaced hr
      exact ⟨replicas, hok⟩
    · by_cases hr : redundancy ≤ MAX_REDUNDANCY
      · obtain ⟨placed, hok', hlen, hmem, hnodup, -⟩ := hplaced hr
        rw [hok', Except.ok.injEq] at hok
        exact hok ▸ ⟨hlen, exists_live_replica (not_lt.mp hfew) hlen hmem hnodup⟩
      · rw [getReplicasInstanceId, if_pos (.inl (not_le.mp hr))] at hok
        cases hok

/-- Three servers, one of them dead, and one redundant copy: the read is degraded. -/
theorem isDistributionDegradedForRead_one_dead :
    ∃ view : ClusterView,
      isDistributionDegradedForRead view [0, 4294967296, 8589934592] 1 = .ok true ∧
      ∀ replicas, getReplicasInstanceId [0, 4294967296, 8589934592] 1 1 = .ok replicas →
        ∃ iid ∈ replicas, isPhysicalInstanceDead view.toInstanceLiveness iid = false := by
  let view : ClusterView := {
    liveInstances := [0, 8589934592], deadInstances := [4294967296], disjoint := by simp
    membership := [0, 4294967296, 8589934592], membership_sorted := by simp
    dead_sorted := by simp, dead_mem := by simp }
  have hok : isDistributionDegradedForRead view [0, 4294967296, 8589934592] 1 = .ok true := by
    decide +kernel
  have hres : Contiguous [0, 4294967296, 8589934592] := by decide +kernel
  have hsafe := isDistributionDegradedForRead_safe view hres (show 1 + 1 ≤ _ by decide +kernel)
  exact ⟨view, hok, fun replicas h => ((hsafe.2.2 true hok 1 (by decide)).2 replicas h).2⟩

/-- A write needs every instance. -/
def isDistributionDegradedForWrite (view : ClusterView) (res : List InstanceID) :
    Except QuorumFault Bool :=
  isDistributionDegraded view res 0

/-- An admitted write finds the instances of all copies of a chunk alive.  While no more servers
than redundant copies have a dead instance, reads are admitted and one live copy is served. -/
theorem admitted_write_survives (view later : ClusterView) {distType : DistType}
    {chunkIid writer : InstanceID} {primary : Nat} (hdist : distType ≠ .dtReplication)
    (hres : Contiguous res) (hr : redundancy ≤ MAX_REDUNDANCY)
    (henough : redundancy < (servers res).card) (hprimary : primary < res.length)
    (hchunk : getPrimaryInstanceId distType res primary writer = .ok chunkIid)
    (hwrite : isDistributionDegradedForWrite view res ≠ .error .noQuorum)
    (hfew : (deadServers later res).card ≤ redundancy) :
    ∃ replicas, getReplicasInstanceId res redundancy primary = .ok replicas ∧
      (∀ iid ∈ replicas, isPhysicalInstanceDead view.toInstanceLiveness iid = false) ∧
      (∃ degraded, isDistributionDegradedForRead later res redundancy = .ok degraded) ∧
      ∃ server ∈ replicas, isPhysicalInstanceDead later.toInstanceLiveness server = false ∧
        ∀ me, isPhysicalInstanceDead later.toInstanceLiveness me = false →
          isResponsibleFor distType res redundancy primary chunkIid later.toInstanceLiveness me =
            .ok (decide (me = server)) := by
  rw [isDistributionDegradedForWrite, isDistributionDegraded_eq hres] at hwrite
  have hall : ¬0 < (deadServers view res).card := fun h => hwrite (if_pos h)
  obtain ⟨replicas, hplace, hlen, hmem, hnodup, -⟩ :=
    getReplicasInstanceId_succeeds hres hr hprimary henough
  obtain ⟨live, hlive, halive⟩ := exists_live_replica hfew hlen hmem hnodup
  obtain ⟨server, hserver⟩ : ∃ server, firstLive later.toInstanceLiveness replicas = some server :=
    Option.isSome_iff_exists.mp (find?_isSome.mpr ⟨live, hlive, by simp [halive]⟩)
  refine ⟨replicas, hplace, fun x hx => ?_, ?_, server, mem_of_find?_eq_some hserver,
    by simpa using find?_some hserver, fun me hme => ?_⟩
  · simpa using exists_live_replica (not_lt.mp hall) (show [x].length = 0 + 1 from rfl)
      (by simpa using hmem x hx) (nodup_singleton _)
  · rw [isDistributionDegradedForRead, isDistributionDegraded_eq hres, if_neg (not_lt.mpr hfew)]
    exact ⟨_, rfl⟩
  · rw [isResponsibleFor_eq_decide hdist hplace hchunk hme, hserver]
    simp [eq_comm]

/-- A chunk with one redundant copy survives the loss of its primary. -/
theorem admitted_write_survives_primary :
    ∃ replicas, getReplicasInstanceId [0, 4294967296] 1 0 = .ok replicas ∧
      ∃ iid ∈ replicas, isPhysicalInstanceDead ⟨[4294967296], [0], by simp⟩ iid = false := by
  obtain ⟨replicas, hplace, -, -, iid, hin, hlive, -⟩ := admitted_write_survives
    ⟨⟨[0, 4294967296], [], by simp⟩, [0, 4294967296], by simp, by simp, by simp⟩
    ⟨⟨[4294967296], [0], by simp⟩, [0, 4294967296], by simp, by simp, by simp⟩
    (by decide) (by decide +kernel) (by decide) (by decide +kernel) (by decide)
    (show getPrimaryInstanceId .dtHashPartitioned [0, 4294967296] 0 0 = .ok 0 from rfl)
    (by decide +kernel) (show _ ≤ 1 by decide +kernel)
  exact ⟨replicas, hplace, iid, hin, hlive⟩

end SciDB.Replication
