import SciDB.Replication.Placement

/-!
# Who serves a chunk after failures

After some instances have died, each live instance decides on its own whether it
serves a chunk: `ReplicationManager::isResponsibleFor` compares its id with the
recorded primary and, if the primary is dead, with the recomputed replicas.  The
instances never talk to each other about it; they only share the liveness of the
query's coordinator.

Main results:

- Theorem {lit}`serveLoop_eq_decide`: the scan of the replicas answers true on
  the first live one and on no other live instance.
- Theorem {lit}`isResponsibleFor_exactly_one`: exactly one live instance serves a
  chunk that still has a live copy, and none serves a chunk that has not.
-/

namespace SciDB.Replication

open List

/-! ## Liveness -/

/-- `DistType` -/
inductive DistType
  | dtUninitialized
  | dtReplication
  | dtHashPartitioned
  | dtLocalInstance
  | dtByRow
  | dtByCol
  | dtUndefined
  | dtGroupBy
  | dtScaLAPACK
  | dtDataframe
  | dtRowCyclic
  | dtColCyclic
deriving DecidableEq, Repr

/-- `InstanceLiveness`: the instances the coordinator sees alive and dead.
`insert` refuses an instance that is already on the other side. -/
structure InstanceLiveness where
  liveInstances : List InstanceID
  deadInstances : List InstanceID
  disjoint : ∀ iid ∈ liveInstances, iid ∉ deadInstances

/-- `InstanceLiveness::find`: the dead flag of an instance, if it is known. -/
def InstanceLiveness.find (liveness : InstanceLiveness) (instanceId : InstanceID) : Option Bool :=
  if instanceId ∈ liveness.liveInstances then some false
  else if instanceId ∈ liveness.deadInstances then some true
  else none

/-- `Query::isPhysicalInstanceDead`: an unknown instance counts as dead. -/
def isPhysicalInstanceDead (liveness : InstanceLiveness) (instanceId : InstanceID) : Bool :=
  match liveness.find instanceId with
  | none => true
  | some isDead => isDead

/-! ## The decision -/

/-- `getPrimaryInstanceId`, as instance `me` computes and records it. -/
def getPrimaryInstanceId (distType : DistType) (res : List InstanceID)
    (logicalInstancePos : Nat) (me : InstanceID) : Except Fault InstanceID :=
  if distType = .dtReplication then .ok me
  else getPhysicalInstanceAt res logicalInstancePos

/-- The loop of `isResponsibleFor` over the redundant replicas. -/
def serveLoop (liveness : InstanceLiveness) (serverIid : InstanceID) : List InstanceID → Bool
  | [] => false
  | replica :: rest =>
    if replica = serverIid then true
    else if ¬ isPhysicalInstanceDead liveness replica then false
    else serveLoop liveness serverIid rest

/-- `isResponsibleFor` on instance `me` for a chunk whose recorded primary is
`chunkIid` and whose primary position in the residency is `primary`. -/
def isResponsibleFor (distType : DistType) (res : List InstanceID) (redundancy primary : Nat)
    (chunkIid : InstanceID) (liveness : InstanceLiveness) (me : InstanceID) :
    Except Fault Bool :=
  if distType = .dtReplication ∨ me = chunkIid then .ok true
  else if ¬ isPhysicalInstanceDead liveness chunkIid then .ok false
  else do
    let replicas ← getReplicasInstanceId res redundancy primary
    return serveLoop liveness me ((replicas.drop 1).take redundancy)

/-! ## Agreement -/

/-- The first instance of a list that is alive. -/
def firstLive (liveness : InstanceLiveness) (replicas : List InstanceID) : Option InstanceID :=
  replicas.find? fun iid => !isPhysicalInstanceDead liveness iid

variable {liveness : InstanceLiveness} {iid me : InstanceID}

theorem firstLive_cons_live (h : isPhysicalInstanceDead liveness iid = false)
    (rest : List InstanceID) :
    firstLive liveness (iid :: rest) = some iid := by
  simp [firstLive, h]

theorem firstLive_cons_dead (h : isPhysicalInstanceDead liveness iid = true)
    (rest : List InstanceID) :
    firstLive liveness (iid :: rest) = firstLive liveness rest := by
  simp [firstLive, h]

/-- On a live instance the scan answers whether it is the first live replica. -/
theorem serveLoop_eq_decide (hme : isPhysicalInstanceDead liveness me = false)
    (replicas : List InstanceID) :
    serveLoop liveness me replicas = decide (firstLive liveness replicas = some me) := by
  induction replicas with
  | nil => simp [serveLoop, firstLive]
  | cons replica rest ih =>
    rw [serveLoop]
    by_cases heq : replica = me
    · subst heq
      simp [firstLive_cons_live hme]
    · rw [if_neg heq]
      cases hdead : isPhysicalInstanceDead liveness replica with
      | false => simp [firstLive_cons_live hdead, heq]
      | true => simp [firstLive_cons_dead hdead, ih]

/-- A live instance of a partitioned array is responsible exactly if it is the
first live one of the chunk's replicas. -/
theorem isResponsibleFor_eq_decide {distType : DistType} {res replicas : List InstanceID}
    {redundancy primary : Nat} {chunkIid writer : InstanceID} (hdist : distType ≠ .dtReplication)
    (hplace : getReplicasInstanceId res redundancy primary = .ok replicas)
    (hchunk : getPrimaryInstanceId distType res primary writer = .ok chunkIid)
    (hme : isPhysicalInstanceDead liveness me = false) :
    isResponsibleFor distType res redundancy primary chunkIid liveness me =
      .ok (decide (firstLive liveness replicas = some me)) := by
  obtain ⟨iid, rest, rfl, hget, hlen, _⟩ := getReplicasInstanceId_ok hplace
  rw [getPrimaryInstanceId, if_neg hdist, getPhysicalInstanceAt, hget] at hchunk
  have heq : iid = chunkIid := Except.ok.inj hchunk
  subst heq
  rw [isResponsibleFor]
  by_cases hmine : me = iid
  · subst hmine
    simp [firstLive_cons_live hme]
  · rw [if_neg (by simp [hdist, hmine])]
    cases hdead : isPhysicalInstanceDead liveness iid with
    | false =>
      simp [firstLive_cons_live hdead, Ne.symm hmine]
    | true =>
      rw [hplace, firstLive_cons_dead hdead, ← serveLoop_eq_decide hme]
      show Except.ok (serveLoop liveness me (rest.take redundancy)) = _
      rw [take_of_length_le (le_of_eq hlen)]

/-- Exactly one server after failures.  For every chunk of a partitioned array
and every liveness that the instances share: if one of the chunk's replicas is
alive, there is one live instance, holding a copy, on which `isResponsibleFor`
answers true, and it answers false on all other live instances; if all replicas
are dead it answers false on every live instance. -/
theorem isResponsibleFor_exactly_one {distType : DistType} {res replicas : List InstanceID}
    {redundancy primary : Nat} {chunkIid writer : InstanceID} (liveness : InstanceLiveness)
    (hdist : distType ≠ .dtReplication)
    (hplace : getReplicasInstanceId res redundancy primary = .ok replicas)
    (hchunk : getPrimaryInstanceId distType res primary writer = .ok chunkIid) :
    ((∃ iid ∈ replicas, isPhysicalInstanceDead liveness iid = false) →
      ∃ server ∈ replicas, server ∈ res ∧ isPhysicalInstanceDead liveness server = false ∧
        ∀ me ∈ res, isPhysicalInstanceDead liveness me = false →
          isResponsibleFor distType res redundancy primary chunkIid liveness me =
            .ok (decide (me = server))) ∧
    ((∀ iid ∈ replicas, isPhysicalInstanceDead liveness iid = true) →
      ∀ me ∈ res, isPhysicalInstanceDead liveness me = false →
        isResponsibleFor distType res redundancy primary chunkIid liveness me = .ok false) := by
  obtain ⟨_, _, _, _, _, hmem⟩ := getReplicasInstanceId_ok hplace
  constructor
  · rintro ⟨iid, hiid, halive⟩
    obtain ⟨server, hserver⟩ : ∃ server, firstLive liveness replicas = some server := by
      rw [← Option.isSome_iff_exists, firstLive, find?_isSome]
      exact ⟨iid, hiid, by simp [halive]⟩
    have hin : server ∈ replicas := mem_of_find?_eq_some hserver
    have hlive : isPhysicalInstanceDead liveness server = false := by
      simpa using find?_some hserver
    refine ⟨server, hin, hmem server hin, hlive, ?_⟩
    intro me _ hme
    rw [isResponsibleFor_eq_decide hdist hplace hchunk hme, hserver]
    simp [eq_comm]
  · intro hall me _ hme
    have hnone : firstLive liveness replicas = none := by
      rw [firstLive, find?_eq_none]
      intro iid hiid
      simp [hall iid hiid]
    rw [isResponsibleFor_eq_decide hdist hplace hchunk hme, hnone]
    simp

/-- Three servers with one instance each and one redundant copy: with the
primary's server dead, exactly one of the two others answers true. -/
theorem isResponsibleFor_one_dead :
    ∃ server, ∀ me ∈ [(0 : InstanceID), 4294967296, 8589934592],
      isPhysicalInstanceDead ⟨[0, 8589934592], [4294967296], by simp⟩ me = false →
        isResponsibleFor .dtHashPartitioned [0, 4294967296, 8589934592] 1 1 4294967296
          ⟨[0, 8589934592], [4294967296], by simp⟩ me = .ok (decide (me = server)) := by
  have hplace : getReplicasInstanceId [0, 4294967296, 8589934592] 1 1 = .ok [4294967296, 0] := by
    decide +kernel
  have hchunk : getPrimaryInstanceId .dtHashPartitioned [0, 4294967296, 8589934592] 1 0 =
      .ok 4294967296 := by
    decide +kernel
  obtain ⟨server, _, _, _, h⟩ :=
    (isResponsibleFor_exactly_one ⟨[0, 8589934592], [4294967296], by simp⟩
      (by decide) hplace hchunk).1 ⟨0, by decide +kernel, by decide +kernel⟩
  exact ⟨server, h⟩

end SciDB.Replication
