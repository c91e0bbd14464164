import Mathlib
import SciDB.Lib.OrderedMap
import SciDB.Lib.Runs

/-!
# Ordered broadcast

Every instance has one `OrderedBcastManager`.  A local request is stamped with
the clock of the instance and broadcast; a remote one moves the clock past its
stamp, waits in a queue ordered by `(timestamp, instance id)` and is
acknowledged, unless something broadcast before already carries a larger clock.
The head of the queue is released when the last clock heard from every member of
the view has reached its timestamp.

What arrives while an instance is not in sync is deferred.  When the instance
enters the view, its clocks and its queue are reset, the deferred entries are
processed in the order of their arrival and acknowledged by one reply.

The managers of the instances and the channels between them form a cluster that
takes one event after another.  Clocks are natural numbers.
-/

namespace SciDB.Network.OrderedBcast

open OrderedMap

abbrev Timestamp := Nat

/-! ## Logical timestamps -/

structure LogicalTimestamp (ι : Type*) where
  timestamp : Timestamp
  instanceId : ι
deriving DecidableEq

namespace LogicalTimestamp

variable {ι : Type*} [LinearOrder ι]

/-- Timestamps first, instance ids among equal ones. -/
instance : LinearOrder (LogicalTimestamp ι) :=
  LinearOrder.lift' (fun lts => toLex (lts.timestamp, lts.instanceId)) (by
    intro a b h
    have hpair := Prod.mk.inj (toLex.injective h)
    cases a
    cases b
    exact congrArg₂ mk hpair.1 hpair.2)

variable {a b : LogicalTimestamp ι}

/-- The comparison of the source. -/
theorem lt_iff :
    a < b ↔ if a.timestamp = b.timestamp then a.instanceId < b.instanceId
      else a.timestamp < b.timestamp := by
  have hlex : a < b ↔ a.timestamp < b.timestamp ∨
      a.timestamp = b.timestamp ∧ a.instanceId < b.instanceId := Prod.Lex.toLex_lt_toLex
  rw [hlex]
  split
  · next heq => simp [heq]
  · next hne => simp [hne]

theorem lt_of_timestamp_lt (h : a.timestamp < b.timestamp) : a < b := by
  rw [lt_iff, if_neg (Nat.ne_of_lt h)]
  exact h

theorem timestamp_le_of_le (h : a ≤ b) : a.timestamp ≤ b.timestamp := by
  by_contra hlt
  exact absurd h (not_le.mpr (lt_of_timestamp_lt (not_le.mp hlt)))

end LogicalTimestamp

section

variable {ι α : Type*} [LinearOrder ι]

/-! ## Views -/

/-- The members of a view, each with the version of its liveness information. -/
abbrev VersionVector (ι : Type*) [LinearOrder ι] := OrdMap ι Nat

inductive MsgDeliveryAction where
  | deliver
  | discard
  | defer
deriving DecidableEq

structure LivenessTracker (ι : Type*) [LinearOrder ι] where
  versionVector : VersionVector ι
  isInSync : Bool

/-- What comparing two version vectors has found. -/
structure Comparison where
  skip : Bool
  newer : Bool
  older : Bool

/-- Walk along the local and the other version vector, up to the end of one. -/
def compareVersions : List (ι × Nat) → List (ι × Nat) → Comparison → Comparison
  | (localInst, localVer) :: locals, (otherInst, otherVer) :: others, c =>
    if localInst = otherInst then
      if localVer > otherVer then compareVersions locals others { c with older := true }
      else if localVer < otherVer then compareVersions locals others { c with newer := true }
      else compareVersions locals others c
    else if localInst < otherInst then
      compareVersions locals ((otherInst, otherVer) :: others) { c with skip := true }
    else
      compareVersions ((localInst, localVer) :: locals) others { c with skip := true }
  | [], _, c => c
  | _ :: _, [], c => c
termination_by locals others => locals.length + others.length

/-- What is done with a message sent in the view of a version vector. -/
def LivenessTracker.getMsgDeliveryAction (t : LivenessTracker ι) (vv : VersionVector ι) :
    MsgDeliveryAction :=
  if t.versionVector.size = 0 then .defer
  else
    let c := compareVersions t.versionVector.entries vv.entries ⟨false, false, false⟩
    let skip := c.skip || decide (vv.size ≠ t.versionVector.size)
    if !skip && !c.newer && !c.older && t.isInSync then .deliver
    else if c.older then .discard
    else .defer

/-! ## The manager of one instance -/

/-- What a request or a reply carries besides its timestamp and its source. -/
inductive Content (ι α : Type*) where
  | request (message : α)
  | reply (requestInstance : ι) (requestTimestamp : Timestamp)
deriving DecidableEq

structure Entry (ι α : Type*) [LinearOrder ι] where
  versionVector : VersionVector ι
  content : Content ι α

/-- An entry with its timestamp and its source, on a channel or in a queue. -/
abbrev Stamped (ι α : Type*) [LinearOrder ι] := LogicalTimestamp ι × Entry ι α

/-- The fields of a manager, and what it has done in the view: the local requests
made, those stamped, the messages handed to the network, the messages released,
and how many it dropped as stale or as duplicates. -/
structure Manager (ι α : Type*) [LinearOrder ι] where
  selfInstanceId : ι
  livenessTracker : LivenessTracker ι
  ts : Timestamp
  lastBroadcastTs : Timestamp
  remoteTimestamps : OrdMap ι Timestamp
  queue : OrdMap (LogicalTimestamp ι) α
  deferredQueue : List (Stamped ι α)
  asked : List α
  requested : List (LogicalTimestamp ι × α)
  sent : List (Stamped ι α)
  released : List (LogicalTimestamp ι × α)
  dropped : Nat

namespace Manager

variable (m : Manager ι α)

def isOkToRelease (lts : LogicalTimestamp ι) : Bool :=
  if m.livenessTracker.versionVector.size > m.remoteTimestamps.size then false
  else m.remoteTimestamps.entries.all (fun e => decide (¬e.2 < lts.timestamp))

/-- Note the own clock before anything is released. -/
def noteClock : Manager ι α :=
  { m with remoteTimestamps := m.remoteTimestamps.insert m.selfInstanceId m.ts }

/-- Release the head of the queue as long as that is allowed. -/
def releaseQueue : Manager ι α :=
  { m with
    released := m.released ++ m.queue.entries.takeWhile (fun e => m.isOkToRelease e.1)
    queue := m.queue.dropWhile m.isOkToRelease }

def release : Manager ι α :=
  if m.livenessTracker.isInSync then m.noteClock.releaseQueue else m

def broadcastReply (requestId : ι) (requestTs : Timestamp) (vVec : VersionVector ι) : Manager ι α :=
  { m with
    sent := m.sent ++ [(⟨m.ts, m.selfInstanceId⟩, ⟨vVec, .reply requestId requestTs⟩)]
    lastBroadcastTs := m.ts }

def broadcastRequest (lts : LogicalTimestamp ι) (message : α) (vVec : VersionVector ι) :
    Manager ι α :=
  { m with
    sent := m.sent ++ [(lts, ⟨vVec, .request message⟩)]
    lastBroadcastTs := lts.timestamp }

/-- Insert into the queue; a key that is there keeps its value. -/
def enqueue (lts : LogicalTimestamp ι) (message : α) : Manager ι α :=
  match m.queue.get lts with
  | some _ => m
  | none => { m with queue := m.queue.insert lts message }

def deliverLocalRequest (lts : LogicalTimestamp ι) (message : α) (vVec : VersionVector ι) :
    Manager ι α :=
  let m := { m.enqueue lts message with requested := m.requested ++ [(lts, message)] }
  if vVec.size = 1 then m.release else m.broadcastRequest lts message vVec

/-- Stamp a local request with the next time. -/
def stampLocalRequest (message : α) (vVec : VersionVector ι) : Manager ι α :=
  let m := { m with ts := m.ts + 1 }
  m.deliverLocalRequest ⟨m.ts, m.selfInstanceId⟩ message vVec

def localRequest (message : α) : Manager ι α :=
  let vVec := m.livenessTracker.versionVector
  let m := { m with asked := m.asked ++ [message] }
  match m.livenessTracker.getMsgDeliveryAction vVec with
  | .deliver => m.stampLocalRequest message vVec
  | _ =>
    { m with
      deferredQueue := m.deferredQueue ++ [(⟨0, m.selfInstanceId⟩, ⟨vVec, .request message⟩)] }

/-- The clock moves past the timestamp of what was received. -/
def advance (timestamp : Timestamp) : Manager ι α :=
  { m with ts := max m.ts timestamp + 1 }

/-- The last clock heard from an instance is not smaller than a timestamp. -/
def isStale (lts : LogicalTimestamp ι) : Bool :=
  (m.remoteTimestamps.get lts.instanceId).any (fun known => decide (known ≥ lts.timestamp))

def drop : Manager ι α :=
  { m with dropped := m.dropped + 1 }

/-- Note the clock of a remote instance. -/
def hear (lts : LogicalTimestamp ι) : Manager ι α :=
  { m with remoteTimestamps := m.remoteTimestamps.insert lts.instanceId lts.timestamp }

/-- Reply, unless a larger clock has been broadcast. -/
def acknowledge (lts : LogicalTimestamp ι) (vVec : VersionVector ι) (isReply : Bool) :
    Manager ι α :=
  if isReply && decide (m.lastBroadcastTs < lts.timestamp) then
    m.broadcastReply lts.instanceId lts.timestamp vVec
  else m

def deliverRemoteRequest (lts : LogicalTimestamp ι) (message : α) (vVec : VersionVector ι)
    (isReply : Bool) : Manager ι α × Bool :=
  if m.isStale lts then (m.drop, false)
  else
    match m.queue.get lts with
    | some _ => (m.drop, false)
    | none => ((((m.enqueue lts message).hear lts).acknowledge lts vVec isReply).release, true)

def deliverRemoteReply (lts : LogicalTimestamp ι) : Manager ι α :=
  if m.isStale lts then m.drop else (m.hear lts).release

def deferEntry (e : Stamped ι α) : Manager ι α :=
  { m with deferredQueue := m.deferredQueue ++ [e] }

def remoteRequest (message : α) (lts : LogicalTimestamp ι) (vVec : VersionVector ι) : Manager ι α :=
  match m.livenessTracker.getMsgDeliveryAction vVec with
  | .discard => m
  | .defer => m.deferEntry (lts, ⟨vVec, .request message⟩)
  | .deliver => ((m.advance lts.timestamp).deliverRemoteRequest lts message vVec true).1

def remoteReply (lts : LogicalTimestamp ι) (reqSrc : ι) (reqTs : Timestamp)
    (vVec : VersionVector ι) : Manager ι α :=
  match m.livenessTracker.getMsgDeliveryAction vVec with
  | .discard => m
  | .defer => m.deferEntry (lts, ⟨vVec, .reply reqSrc reqTs⟩)
  | .deliver => (m.advance lts.timestamp).deliverRemoteReply lts

/-- A message comes out of the channel from its source. -/
def handleMessage (e : Stamped ι α) : Manager ι α :=
  match e.2.content with
  | .request message => m.remoteRequest message e.1 e.2.versionVector
  | .reply reqSrc reqTs => m.remoteReply e.1 reqSrc reqTs e.2.versionVector

/-! ## Entering a view -/

/-- The loop over the deferred entries: the entries that stay, and the latest
remote request delivered. -/
structure Sweep (ι α : Type*) [LinearOrder ι] where
  manager : Manager ι α
  kept : List (Stamped ι α)
  lastRemoteReqTs : Timestamp
  lastRemoteReqInstance : Option ι

/-- A deferred entry of the current view. -/
def deliverDeferred (s : Sweep ι α) (lts : LogicalTimestamp ι) (vVec : VersionVector ι)
    (content : Content ι α) : Sweep ι α :=
  match content with
  | .request message =>
    if lts.instanceId = s.manager.selfInstanceId then
      { s with manager := s.manager.stampLocalRequest message vVec }
    else
      let r := (s.manager.advance lts.timestamp).deliverRemoteRequest lts message vVec false
      if r.2 && decide (s.lastRemoteReqTs < lts.timestamp) then
        { s with
          manager := r.1
          lastRemoteReqTs := lts.timestamp
          lastRemoteReqInstance := some lts.instanceId }
      else { s with manager := r.1 }
  | .reply _ _ =>
    { s with manager := (s.manager.advance lts.timestamp).deliverRemoteReply lts }

/-- A local deferred request is not versioned: it goes into the current view. -/
def currentVersion (vv : VersionVector ι) : VersionVector ι :=
  if vv.size = 0 then m.livenessTracker.versionVector else vv

def sweepStep (s : Sweep ι α) (e : Stamped ι α) : Sweep ι α :=
  let vVec := s.manager.currentVersion e.2.versionVector
  match s.manager.livenessTracker.getMsgDeliveryAction vVec with
  | .discard => s
  | .deliver => deliverDeferred s e.1 vVec e.2.content
  | .defer => { s with kept := s.kept ++ [(e.1, ⟨vVec, e.2.content⟩)] }

/-- One reply for all the deferred remote requests. -/
def acknowledgeAll (s : Sweep ι α) : Manager ι α :=
  let m := { s.manager with deferredQueue := s.kept }
  match s.lastRemoteReqInstance with
  | some requestId =>
    if m.lastBroadcastTs < s.lastRemoteReqTs then
      m.broadcastReply requestId s.lastRemoteReqTs m.livenessTracker.versionVector
    else m
  | none => m

/-- Remote clocks may have been reset, and some instances may not know ours. -/
def resetClocks : Manager ι α :=
  { m with
    remoteTimestamps := OrdMap.empty.insert m.selfInstanceId m.ts
    lastBroadcastTs := 0
    queue := OrdMap.empty }

def processQueueOnLivenessChange : Manager ι α :=
  if m.livenessTracker.isInSync then
    acknowledgeAll (m.deferredQueue.foldl sweepStep ⟨m.resetClocks, [], 0, none⟩)
  else m

/-- The liveness of every member has become known and is the same. -/
def enterView (view : VersionVector ι) : Manager ι α :=
  processQueueOnLivenessChange { m with livenessTracker := ⟨view, true⟩ }

end Manager

/-! ## The cluster -/

/-- The managers, and the messages under way from one instance to another. -/
structure Cluster (ι α : Type*) [LinearOrder ι] where
  managers : ι → Manager ι α
  channels : ι → ι → List (Stamped ι α)

inductive Event (ι α : Type*) where
  | localRequest (i : ι) (message : α)
  | receive (source destination : ι)
  | enterView (i : ι)

namespace Cluster

/-- An instance is in a version vector. -/
def Member (view : VersionVector ι) (i : ι) : Prop :=
  (view.get i).isSome

instance (view : VersionVector ι) (i : ι) : Decidable (Member view i) :=
  inferInstanceAs (Decidable (_ = true))

/-- Replace a manager.  What it has newly sent goes out to the members of the
view of each message, except the instance itself. -/
def update (s : Cluster ι α) (i : ι) (m : Manager ι α) : Cluster ι α where
  managers := Function.update s.managers i m
  channels := fun source destination =>
    if source = i ∧ destination ≠ i then
      s.channels source destination ++ (m.sent.drop (s.managers i).sent.length).filter
        (fun e => decide (Member e.2.versionVector destination))
    else s.channels source destination

/-- Take the first message out of a channel. -/
def pop (s : Cluster ι α) (source destination : ι) : Cluster ι α :=
  { s with
    channels := Function.update s.channels source
      (Function.update (s.channels source) destination (s.channels source destination).tail) }

/-- One event at a member of the view.  An instance enters the view once. -/
def step (view : VersionVector ι) (s : Cluster ι α) : Event ι α → Cluster ι α
  | .localRequest i message =>
    if Member view i then s.update i ((s.managers i).localRequest message) else s
  | .receive source destination =>
    if Member view source ∧ Member view destination then
      match s.channels source destination with
      | [] => s
      | e :: _ =>
        (s.pop source destination).update destination ((s.managers destination).handleMessage e)
    else s
  | .enterView i =>
    if Member view i ∧ (s.managers i).livenessTracker.isInSync = false then
      s.update i ((s.managers i).enterView view)
    else s

end Cluster

end

end SciDB.Network.OrderedBcast
