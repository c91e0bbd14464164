import SciDB.Lib.Runs
import SciDB.Replication.Placement

/-!
# The replica send queue

`ReplicationManager` keeps one queue of replica items per destination instance.
Any thread that waits for its own item transmits whatever item is at the front
of that queue; an item refused by flow control stays at the front, and an
aborted item stays in the queue until it is popped.

Every operation runs under `_repMutex`, which `wait` gives up only inside
`_repEvent.wait`.  One event of the model is one such critical section.  What
the network, the query state and the injected errors answer is part of the
event.

Main results:

- Theorem {lit}`step_keeps`: every critical section keeps the queue invariant
  and changes no item that is already done.
- Theorem {lit}`wait_never_asserts`: a thread waiting for an accepted item never
  meets an empty queue.
- Theorem {lit}`replica_messages_ordered_once`: per destination the messages
  handed to the network are the accepted items in order, without repetition.
-/

namespace SciDB.Replication

open Runs List

/-! ## Items and the manager's state -/

/-- Reference to an item, a `shared_ptr<Item>` in the source. -/
abbrev ItemId := Nat

/-- The exceptions that end an item or a call. -/
inductive RepError
  /-- raised by the network send or by the validation of the query -/
  | sendFailed (code : Nat)
  /-- `SCIDB_LE_UNKNOWN_ERROR` set by `abort` -/
  | aborted
  /-- `SCIDB_LE_INJECTED_ERROR` -/
  | injected
  /-- the query became invalid while its thread was waiting -/
  | queryInvalid
  /-- a failed `assert` -/
  | assertion (text : String)
deriving DecidableEq, Repr

variable {M : Type}

/-- `ReplicationManager::Item` with a message of type `M`. -/
structure Item (M : Type) where
  instanceId : InstanceID
  chunkMsg : Option M
  isDone : Bool
  isStalled : Bool
  error : Option RepError

/-- The constructor of `Item`. -/
def Item.new (instanceId : InstanceID) (chunkMsg : M) : Item M :=
  ⟨instanceId, some chunkMsg, false, false, none⟩

/-- `setDone()` -/
def Item.setDone (item : Item M) : Item M :=
  { item with isDone := true, isStalled := false, chunkMsg := none }

/-- `setDone(e)` -/
def Item.setDoneError (e : RepError) (item : Item M) : Item M :=
  { item.setDone with error := some e }

/-- `setStalled` -/
def Item.setStalled (item : Item M) : Item M :=
  { item with isStalled := true }

open Item (setDone setDoneError setStalled)

/-- What `sendPhysical` was called with when it returned normally. -/
structure Handed (M : Type) where
  item : ItemId
  instanceId : InstanceID
  chunkMsg : Option M

/-- The manager: the items, one queue per destination and the threads blocked in
`_repEvent.wait`, each with the item it waits for.  The last three fields only
record history: the items accepted by `send`, the items popped from a queue and
the messages handed to the network, each in order. -/
structure RepState (M : Type) where
  items : ItemId → Item M
  repQueue : InstanceID → List ItemId
  waiting : List ItemId
  accepted : List ItemId
  left : List ItemId
  handed : List (Handed M)

/-- Nothing sent yet; `dest` and `msg` are what the items are constructed with. -/
def RepState.init (dest : ItemId → InstanceID) (msg : ItemId → M) : RepState M where
  items id := Item.new (dest id) (msg id)
  repQueue _ := []
  waiting := []
  accepted := []
  left := []
  handed := []

/-- Change one item in place. -/
def RepState.modify (s : RepState M) (id : ItemId) (f : Item M → Item M) : RepState M :=
  { s with items := Function.update s.items id (f (s.items id)) }

/-- `ri.pop_front()` on the queue of an instance. -/
def RepState.popFront (s : RepState M) (instanceId : InstanceID) : RepState M :=
  match s.repQueue instanceId with
  | [] => s
  | id :: rest =>
    { s with repQueue := Function.update s.repQueue instanceId rest, left := s.left ++ [id] }

/-- `ri->push_back(item)`, recorded as accepted. -/
def RepState.pushBack (s : RepState M) (id : ItemId) : RepState M :=
  let instanceId := (s.items id).instanceId
  { s with
    repQueue := Function.update s.repQueue instanceId (s.repQueue instanceId ++ [id])
    accepted := s.accepted ++ [id] }

/-- A normal return of `sendPhysical` for an item. -/
def RepState.hand (s : RepState M) (id : ItemId) : RepState M :=
  { s with handed := s.handed ++ [⟨id, (s.items id).instanceId, (s.items id).chunkMsg⟩] }

/-! ## The operations -/

/-- How the body of the `try` block in `sendItem` ends. -/
inductive SendOutcome
  | sent
  /-- `NetworkManager::OverflowException` -/
  | overflow
  /-- any other exception -/
  | failed (e : RepError)

/-- The environment's part in one call of `sendItem`: the network's answer and
whether an error is injected after the pop. -/
structure Attempt where
  outcome : SendOutcome
  injected : Bool

/-- `hasReplicaSendInjectedError` at the end of `sendItem`. -/
def afterPop (a : Attempt) (s : RepState M) : RepState M × Except RepError Bool :=
  (s, if a.injected then .error .injected else .ok true)

/-- `sendItem` on the queue of an instance: true when the front item left. -/
def sendItem (s : RepState M) (instanceId : InstanceID) (a : Attempt) :
    RepState M × Except RepError Bool :=
  match s.repQueue instanceId with
  | [] => (s, .error (.assertion "ri.front()"))
  | id :: _ =>
    if (s.items id).isDone then afterPop a (s.popFront instanceId)
    else
      match a.outcome with
      | .sent => afterPop a (((s.hand id).modify id setDone).popFront instanceId)
      | .overflow => (s.modify id setStalled, .ok false)
      | .failed e => afterPop a ((s.modify id (setDoneError e)).popFront instanceId)

/-- `send` -/
def send (s : RepState M) (id : ItemId) (a : Attempt) : RepState M × Except RepError Unit :=
  if (s.items id).isDone then (s, .error (.assertion "!item->isDone()"))
  else
    let s' := s.pushBack id
    let ri := s'.repQueue (s.items id).instanceId
    -- transmit only if mine is the only item or the front one was stalled
    if ri.length = 1 ∨ (ri.head?.any fun front => (s'.items front).isStalled) then
      let (s'', result) := sendItem s' (s.items id).instanceId a
      (s'', result.map fun _ => ())
    else (s', .ok ())

/-- How a critical section of `wait` ends. -/
inductive WaitResult
  | returned
  | threw (e : RepError)
  /-- blocked in `_repEvent.wait` -/
  | blocked
  /-- a failed `assert` -/
  | assertFailed (text : String)
deriving DecidableEq, Repr

/-- `throwIfError` followed by the return from `wait`. -/
def throwIfError (item : Item M) : WaitResult :=
  match item.error with
  | some e => .threw e
  | none => .returned

/-- The environment's part in one round of the loop of `wait`. -/
structure Round where
  attempt : Attempt
  /-- an error is injected before the event wait -/
  injected : Bool
  queryValid : Bool

/-- The part of a round after a refused transmission: either an exception ends
the item or the thread blocks. -/
def beginWait (s : RepState M) (id : ItemId) (r : Round) : RepState M × WaitResult :=
  if r.injected then (s.modify id (setDoneError .injected), .threw .injected)
  else if (s.items id).isDone then (s, throwIfError (s.items id))
  else if r.queryValid then ({ s with waiting := id :: s.waiting }, .blocked)
  else (s.modify id (setDoneError .queryInvalid), .threw .queryInvalid)

/-- The loop of `wait`, by the number of items in the queue: a round that does
not end the loop pops one item. -/
def waitLoop (id : ItemId) (instanceId : InstanceID) :
    (queued : Nat) → (Nat → Round) → RepState M → RepState M × WaitResult
  | 0, _, s => (s, .assertFailed "!ri->empty()")
  | queued + 1, rounds, s =>
    match sendItem s instanceId (rounds 0).attempt with
    | (s', .error e) => (s', .threw e)
    | (s', .ok true) =>
      if (s.repQueue instanceId).head? = some id then (s', throwIfError (s'.items id))
      else if (s'.items id).isDone then (s', throwIfError (s'.items id))
      else waitLoop id instanceId queued (fun n => rounds (n + 1)) s'
    | (s', .ok false) => beginWait s' id (rounds 0)

/-- `wait` from its entry or from its return out of `_repEvent.wait`: both test
`isDone` first and then enter the loop. -/
def wait (s : RepState M) (id : ItemId) (rounds : Nat → Round) : RepState M × WaitResult :=
  if (s.items id).isDone then (s, throwIfError (s.items id))
  else
    let instanceId := (s.items id).instanceId
    waitLoop id instanceId (s.repQueue instanceId).length rounds s

/-- A timeout inside `_repEvent.wait` runs `keepWaiting`. -/
def expire (s : RepState M) (id : ItemId) (queryValid : Bool) : RepState M :=
  if (s.items id).isDone then { s with waiting := s.waiting.erase id }
  else if queryValid then s
  else
    { s with waiting := s.waiting.erase id }.modify id (setDoneError .queryInvalid)

/-- `abort` -/
def abort (s : RepState M) (id : ItemId) : RepState M :=
  if (s.items id).isDone then s else s.modify id (setDoneError .aborted)

/-- One critical section. -/
inductive Event
  | send (id : ItemId) (a : Attempt)
  | wait (id : ItemId) (rounds : Nat → Round)
  /-- a thread returns from `_repEvent.wait` -/
  | wake (id : ItemId) (rounds : Nat → Round)
  /-- a thread's timed wait inside `_repEvent.wait` runs out -/
  | expire (id : ItemId) (queryValid : Bool)
  | abort (id : ItemId)

/-- The state after one critical section.  Only blocked threads wake or expire. -/
def step (s : RepState M) : Event → RepState M
  | .send id a => (send s id a).1
  | .wait id rounds => (wait s id rounds).1
  | .wake id rounds =>
    if id ∈ s.waiting then (wait { s with waiting := s.waiting.erase id } id rounds).1 else s
  | .expire id queryValid => if id ∈ s.waiting then expire s id queryValid else s
  | .abort id => abort s id

/-! ## What one change keeps -/

/-- The invariant of the send queues, for items constructed with `dest` and
`msg`. -/
structure QueueInv (dest : ItemId → InstanceID) (msg : ItemId → M) (s : RepState M) : Prop where
  instanceId_eq : ∀ id, (s.items id).instanceId = dest id
  fresh : ∀ id, (s.items id).isDone = false →
    (s.items id).chunkMsg = some (msg id) ∧ (s.items id).error = none
  /-- what left the queue of an instance, then the queue, is what was accepted -/
  order : ∀ d, s.left.filter (dest · = d) ++ s.repQueue d = s.accepted.filter (dest · = d)
  left_done : ∀ id ∈ s.left, (s.items id).isDone = true
  handed_sublist : (s.handed.map Handed.item).Sublist s.left
  handed_nodup : (s.handed.map Handed.item).Nodup
  handed_eq : ∀ h ∈ s.handed, h.instanceId = dest h.item ∧ h.chunkMsg = some (msg h.item)
  mem_handed : ∀ id, id ∈ s.handed.map Handed.item ↔
    (s.items id).isDone = true ∧ (s.items id).error = none

/-- What the invariant says about one item. -/
def ItemInv (dest : ItemId → InstanceID) (msg : ItemId → M) (left : List ItemId)
    (handed : List (Handed M)) (id : ItemId) (item : Item M) : Prop :=
  item.instanceId = dest id ∧
    (item.isDone = false → item.chunkMsg = some (msg id) ∧ item.error = none) ∧
    (id ∈ left → item.isDone = true) ∧
    (id ∈ handed.map Handed.item ↔ item.isDone = true ∧ item.error = none)

/-- An item that is done never changes again. -/
def Settled (s s' : RepState M) : Prop :=
  ∀ id, (s.items id).isDone = true → s'.items id = s.items id

instance : Std.Refl (@Settled M) where
  refl _ _ _ := rfl

instance : IsTrans (RepState M) Settled where
  trans s s' s'' h h' id hdone := by
    have heq := h id hdone
    rw [h' id (by rw [heq]; exact hdone), heq]

variable {dest : ItemId → InstanceID} {msg : ItemId → M} {s s' : RepState M} {id : ItemId}

theorem queueInv_init (dest : ItemId → InstanceID) (msg : ItemId → M) :
    QueueInv dest msg (RepState.init dest msg) where
  instanceId_eq _ := rfl
  fresh _ _ := ⟨rfl, rfl⟩
  order _ := rfl
  left_done := by simp [RepState.init]
  handed_sublist := List.Sublist.refl _
  handed_nodup := by simp [RepState.init]
  handed_eq := by simp [RepState.init]
  mem_handed := by simp [RepState.init, Item.new]

@[simp]
theorem modify_items_self (s : RepState M) (id : ItemId) (f : Item M → Item M) :
    (s.modify id f).items id = f (s.items id) := by
  simp [RepState.modify]

theorem modify_items_ne (s : RepState M) {id x : ItemId} (h : x ≠ id) (f : Item M → Item M) :
    (s.modify id f).items x = s.items x := by
  simp [RepState.modify, h]

theorem settled_of_items (h : s'.items = s.items) : Settled s s' :=
  fun x _ => congrFun h x

/-- Changing an item that is not done settles nothing else. -/
theorem settled_modify (hdone : (s.items id).isDone = false) (f : Item M → Item M) :
    Settled s (s.modify id f) := by
  intro x hx
  by_cases heq : x = id
  · subst heq
    rw [hdone] at hx
    cases hx
  · exact modify_items_ne s heq f

variable {d : InstanceID} {rest : List ItemId} {a : Attempt} {queued : Nat} {rounds : Nat → Round}

theorem popFront_eq (hq : s.repQueue d = id :: rest) :
    s.popFront d =
      { s with repQueue := Function.update s.repQueue d rest, left := s.left ++ [id] } := by
  simp [RepState.popFront, hq]

theorem popFront_items (s : RepState M) (d : InstanceID) : (s.popFront d).items = s.items := by
  unfold RepState.popFront
  split <;> rfl

theorem Settled.popFront (h : Settled s s') (d : InstanceID) : Settled s (s'.popFront d) := by
  intro x hx
  rw [popFront_items]
  exact h x hx

/-- A refused transmission leaves every item as done or not done as it was. -/
theorem sendItem_false (h : sendItem s d a = (s', .ok false)) (x : ItemId) :
    (s'.items x).isDone = (s.items x).isDone := by
  unfold sendItem afterPop at h
  split at h
  · cases h
  · rename_i id rest hq
    split at h
    · split at h <;> cases h
    · split at h
      · split at h <;> cases h
      · cases h
        by_cases heq : x = id
        · subst heq
          simp [setStalled]
        · rw [modify_items_ne s heq]
      · split at h <;> cases h

section

variable (hs : QueueInv dest msg s)

include hs

theorem QueueInv.setWaiting (waiting : List ItemId) :
    QueueInv dest msg { s with waiting := waiting } :=
  { hs with }

theorem QueueInv.item (x : ItemId) : ItemInv dest msg s.left s.handed x (s.items x) :=
  ⟨hs.instanceId_eq x, hs.fresh x, hs.left_done x, hs.mem_handed x⟩

/-- The invariant is kept if the changed item meets its part. -/
theorem QueueInv.modify {f : Item M → Item M}
    (hid : ItemInv dest msg s.left s.handed id (f (s.items id))) :
    QueueInv dest msg (s.modify id f) := by
  have hitem : ∀ x, ItemInv dest msg s.left s.handed x ((s.modify id f).items x) :=
    (Function.forall_update_iff s.items _).mpr ⟨hid, fun x _ => hs.item x⟩
  exact
    { hs with
      instanceId_eq := fun x => (hitem x).1
      fresh := fun x => (hitem x).2.1
      left_done := fun x => (hitem x).2.2.1
      mem_handed := fun x => (hitem x).2.2.2 }

theorem QueueInv.notMem_handed (hdone : (s.items id).isDone = false) :
    id ∉ s.handed.map Handed.item := by
  rw [hs.mem_handed, hdone]
  simp

/-- Ending an item with an error keeps the invariant: it was not handed over and
now never counts as done without error. -/
theorem QueueInv.fail (hdone : (s.items id).isDone = false)
    (e : RepError) : QueueInv dest msg (s.modify id (setDoneError e)) :=
  hs.modify ⟨hs.instanceId_eq id, nofun, fun _ => rfl,
    iff_of_false (hs.notMem_handed hdone) fun h => nomatch h.2⟩

/-- The queue of an instance only holds items for it. -/
theorem QueueInv.dest_of_mem (hmem : id ∈ s.repQueue d) : dest id = d := by
  have h : id ∈ s.accepted.filter (dest · = d) := by
    rw [← hs.order]
    exact mem_append_right _ hmem
  simpa using (mem_filter.mp h).2

/-- Popping the front item moves it from the queue to the items that left. -/
theorem QueueInv.order_pop (hq : s.repQueue d = id :: rest) (d' : InstanceID) :
    (s.left ++ [id]).filter (dest · = d') ++ Function.update s.repQueue d rest d' =
      s.accepted.filter (dest · = d') := by
  have hdest : dest id = d := hs.dest_of_mem (by rw [hq]; exact mem_cons_self)
  rw [← hs.order]
  by_cases heq : d' = d
  · subst heq
    simp [hdest, hq]
  · simp [Function.update_of_ne heq, hdest, Ne.symm heq]

/-- Popping a done front item keeps the invariant. -/
theorem QueueInv.pop (hq : s.repQueue d = id :: rest) (hdone : (s.items id).isDone = true) :
    QueueInv dest msg (s.popFront d) := by
  rw [popFront_eq hq]
  exact
    { hs with
      order := hs.order_pop hq
      left_done := forall_mem_concat hs.left_done hdone
      handed_sublist := hs.handed_sublist.trans (sublist_append_left _ _) }

/-- Handing the front item to the network, marking it done and popping it keeps
the invariant. -/
theorem QueueInv.transmit (hq : s.repQueue d = id :: rest) (hdone : (s.items id).isDone = false) :
    QueueInv dest msg (((s.hand id).modify id setDone).popFront d) := by
  obtain ⟨hmsg, herr⟩ := hs.fresh id hdone
  have hnot := hs.notMem_handed hdone
  have hitem : ∀ x, ItemInv dest msg (s.left ++ [id]) (s.hand id).handed x
      (((s.hand id).modify id setDone).items x) := by
    refine (Function.forall_update_iff s.items _).mpr ⟨⟨hs.instanceId_eq id, nofun, fun _ => rfl,
      ?_⟩, fun x hx => ?_⟩
    · exact iff_of_true (by simp [RepState.hand]) ⟨rfl, herr⟩
    · simpa [ItemInv, RepState.hand, hx] using hs.item x
  rw [popFront_eq (s := (s.hand id).modify id setDone) hq]
  exact
    { instanceId_eq := fun x => (hitem x).1
      fresh := fun x => (hitem x).2.1
      order := hs.order_pop hq
      left_done := fun x => (hitem x).2.2.1
      handed_sublist := by
        show ((s.handed ++ [_]).map Handed.item).Sublist (s.left ++ [id])
        rw [map_append]
        exact hs.handed_sublist.append (List.Sublist.refl _)
      handed_nodup := by
        show ((s.handed ++ [_]).map Handed.item).Nodup
        rw [map_append]
        exact List.Nodup.append hs.handed_nodup (nodup_singleton _) (by simpa using hnot)
      handed_eq := forall_mem_concat hs.handed_eq ⟨hs.instanceId_eq id, hmsg⟩
      mem_handed := fun x => (hitem x).2.2.2 }

/-- Accepting an item puts it at the end of its queue. -/
theorem QueueInv.push (id : ItemId) : QueueInv dest msg (s.pushBack id) :=
  { hs with
    order := by
      intro d
      simp only [RepState.pushBack, hs.instanceId_eq, filter_append]
      rw [← hs.order]
      by_cases heq : d = dest id
      · subst heq
        simp
      · simp [Function.update_of_ne heq, Ne.symm heq] }

/-! ## What the operations keep -/

/-- `sendItem` keeps the invariant and all settled items. -/
theorem sendItem_keeps (d : InstanceID) (a : Attempt) :
    QueueInv dest msg (sendItem s d a).1 ∧ Settled s (sendItem s d a).1 := by
  unfold sendItem
  split
  · exact ⟨hs, refl s⟩
  · rename_i id rest hq
    cases hdone : (s.items id).isDone with
    | true =>
      exact ⟨hs.pop hq hdone, Settled.popFront (refl s) d⟩
    | false =>
      simp only [Bool.false_eq_true, if_false]
      split
      · have hset : Settled s ((s.hand id).modify id setDone) :=
          settled_modify hdone setDone
        exact ⟨hs.transmit hq hdone, hset.popFront d⟩
      · exact ⟨hs.modify (hs.item id), settled_modify hdone _⟩
      · rename_i e _
        have hself : ((s.modify id (setDoneError e)).items id).isDone = true := by
          simp [setDoneError, setDone]
        exact ⟨(hs.fail hdone e).pop hq hself, (settled_modify hdone _).popFront d⟩

theorem send_keeps (id : ItemId) (a : Attempt) :
    QueueInv dest msg (send s id a).1 ∧ Settled s (send s id a).1 := by
  unfold send
  split
  · exact ⟨hs, refl s⟩
  · simp only
    split
    · exact sendItem_keeps (hs.push id) _ a
    · exact ⟨hs.push id, settled_of_items rfl⟩

theorem beginWait_keeps (hdone : (s.items id).isDone = false)
    (r : Round) : QueueInv dest msg (beginWait s id r).1 ∧ Settled s (beginWait s id r).1 := by
  unfold beginWait
  split
  · exact ⟨hs.fail hdone _, settled_modify hdone _⟩
  · split
    · exact ⟨hs, refl s⟩
    · split
      · exact ⟨hs.setWaiting _, settled_of_items rfl⟩
      · exact ⟨hs.fail hdone _, settled_modify hdone _⟩

theorem waitLoop_keeps (id : ItemId) (d : InstanceID)
    (hdone : (s.items id).isDone = false) :
    QueueInv dest msg (waitLoop id d queued rounds s).1 ∧
      Settled s (waitLoop id d queued rounds s).1 := by
  induction queued generalizing s rounds with
  | zero => exact ⟨hs, refl s⟩
  | succ queued ih =>
    obtain ⟨hinv, hset⟩ := sendItem_keeps hs d (rounds 0).attempt
    rw [waitLoop]
    split
    · rename_i s' e hsend
      rw [hsend] at hinv hset
      exact ⟨hinv, hset⟩
    · rename_i s' hsend
      rw [hsend] at hinv hset
      split
      · exact ⟨hinv, hset⟩
      · split
        · exact ⟨hinv, hset⟩
        · rename_i hnot
          rcases @ih s' (fun n => rounds (n + 1)) hinv (by simpa using hnot) with ⟨hinv', hset'⟩
          exact ⟨hinv', IsTrans.trans _ _ _ hset hset'⟩
    · rename_i s' hsend
      rw [hsend] at hinv hset
      obtain ⟨hinv', hset'⟩ :=
        beginWait_keeps hinv (by rw [sendItem_false hsend, hdone]) (rounds 0)
      exact ⟨hinv', IsTrans.trans _ _ _ hset hset'⟩

theorem wait_keeps (id : ItemId) (rounds : Nat → Round) :
    QueueInv dest msg (wait s id rounds).1 ∧ Settled s (wait s id rounds).1 := by
  unfold wait
  split
  · exact ⟨hs, refl s⟩
  · rename_i hdone
    exact waitLoop_keeps hs id _ (by simpa using hdone)

theorem abort_keeps (id : ItemId) : QueueInv dest msg (abort s id) ∧ Settled s (abort s id) := by
  unfold abort
  split
  · exact ⟨hs, refl s⟩
  · rename_i hdone
    rw [Bool.not_eq_true] at hdone
    exact ⟨hs.fail hdone _, settled_modify hdone _⟩

theorem expire_keeps (id : ItemId) (queryValid : Bool) :
    QueueInv dest msg (expire s id queryValid) ∧ Settled s (expire s id queryValid) := by
  unfold expire
  split
  · exact ⟨hs.setWaiting _, settled_of_items rfl⟩
  · rename_i hdone
    rw [Bool.not_eq_true] at hdone
    split
    · exact ⟨hs, refl s⟩
    · exact ⟨(hs.setWaiting (s.waiting.erase id)).fail hdone _, settled_modify hdone _⟩

end

/-- Every critical section keeps the queue invariant and changes no item that is
already done. -/
theorem step_keeps (s : RepState M) (e : Event) (hs : QueueInv dest msg s) :
    QueueInv dest msg (step s e) ∧ Settled s (step s e) := by
  cases e with
  | send id a => exact send_keeps hs id a
  | wait id rounds => exact wait_keeps hs id rounds
  | wake id rounds =>
    rw [step]
    split
    · exact wait_keeps (hs.setWaiting _) id rounds
    · exact ⟨hs, refl s⟩
  | expire id queryValid =>
    rw [step]
    split
    · exact expire_keeps hs id queryValid
    · exact ⟨hs, refl s⟩
  | abort id => exact abort_keeps hs id

/-! ## Whole runs -/

/-- An accepted item that is not done is still in its queue. -/
theorem QueueInv.mem_queue (hs : QueueInv dest msg s) (hacc : id ∈ s.accepted)
    (hdone : (s.items id).isDone = false) : id ∈ s.repQueue (dest id) := by
  have h : id ∈ s.accepted.filter (dest · = dest id) := by simp [hacc]
  rw [← hs.order, mem_append] at h
  rcases h with hleft | hqueue
  · have := hs.left_done id (mem_filter.mp hleft).1
    rw [hdone] at this
    cases this
  · exact hqueue

/-- A successful call of `sendItem` pops one item. -/
theorem sendItem_true (h : sendItem s d a = (s', .ok true)) :
    s'.repQueue d = (s.repQueue d).tail ∧ s'.accepted = s.accepted := by
  unfold sendItem afterPop at h
  split at h
  · cases h
  · rename_i id rest hq
    split at h
    · rw [popFront_eq hq] at h
      obtain ⟨rfl, -⟩ := Prod.mk.inj h
      simp [hq]
    · split at h
      · rw [popFront_eq (s := (s.hand id).modify id setDone) hq] at h
        obtain ⟨rfl, -⟩ := Prod.mk.inj h
        exact ⟨by simp [hq], rfl⟩
      · cases h
      · rename_i e _
        rw [popFront_eq (s := s.modify id (setDoneError e)) hq] at h
        obtain ⟨rfl, -⟩ := Prod.mk.inj h
        exact ⟨by simp [hq], rfl⟩

theorem waitLoop_ne_assertFailed (hs : QueueInv dest msg s) (hacc : id ∈ s.accepted)
    (hdone : (s.items id).isDone = false) (hd : dest id = d) (hlen : (s.repQueue d).length = queued)
    (text : String) :
    (waitLoop id d queued rounds s).2 ≠ .assertFailed text := by
  have hnever : ∀ item : Item M, throwIfError item ≠ .assertFailed text := by
    intro item
    unfold throwIfError
    split <;> simp
  induction queued generalizing s rounds with
  | zero =>
    have hmem := hs.mem_queue hacc hdone
    rw [hd, length_eq_zero_iff.mp hlen] at hmem
    cases hmem
  | succ queued ih =>
    obtain ⟨hinv, -⟩ := sendItem_keeps hs d (rounds 0).attempt
    rw [waitLoop]
    split
    · simp
    · rename_i s' hsend
      rw [hsend] at hinv
      obtain ⟨hqueue, hacc'⟩ := sendItem_true hsend
      split
      · exact hnever _
      · split
        · exact hnever _
        · rename_i hnot
          refine ih hinv (by rwa [hacc']) (by simpa using hnot) ?_
          rw [hqueue, length_tail, hlen]
          rfl
    · unfold beginWait
      split
      · simp
      · split
        · exact hnever _
        · split <;> simp

/-- A thread that waits for an accepted item never meets an empty queue. -/
theorem wait_ne_assertFailed (hs : QueueInv dest msg s) (hacc : id ∈ s.accepted)
    (rounds : Nat → Round) (text : String) : (wait s id rounds).2 ≠ .assertFailed text := by
  unfold wait
  split
  · unfold throwIfError
    split <;> simp
  · rename_i hdone
    rw [Bool.not_eq_true] at hdone
    exact waitLoop_ne_assertFailed hs hacc hdone (hs.instanceId_eq id).symm rfl text

/-- In every state that can be reached, a thread that waits for an accepted item does not
meet an empty queue, whatever the network answers. -/
theorem wait_never_asserts (dest : ItemId → InstanceID) (msg : ItemId → M) (events : List Event)
    (hacc : id ∈ (run step (RepState.init dest msg) events).accepted) (rounds : Nat → Round)
    (text : String) :
    (wait (run step (RepState.init dest msg) events) id rounds).2 ≠ .assertFailed text :=
  wait_ne_assertFailed (run_keeps step_keeps (queueInv_init dest msg) events).1 hacc rounds text

/-- A thread transmits the stalled item in front of its own one first. -/
theorem wait_never_asserts_stalled :
    (wait (run step (RepState.init (fun _ => 7) fun id => id) [.send 0 ⟨.overflow, false⟩,
        .send 1 ⟨.overflow, false⟩]) 1 fun _ => ⟨⟨.sent, false⟩, false, true⟩).2 ≠
      .assertFailed "!ri->empty()" :=
  wait_never_asserts _ _ _ (by decide +kernel) _ _

/-- An item that `abort` finds unsent ends with an error. -/
theorem abort_unsent (hs : QueueInv dest msg s) (hunsent : id ∉ s.handed.map Handed.item) :
    ((abort s id).items id).isDone = true ∧ ((abort s id).items id).error ≠ none := by
  unfold abort
  split
  · rename_i hdone
    exact ⟨hdone, fun herr => hunsent ((hs.mem_handed id).mpr ⟨hdone, herr⟩)⟩
  · simp [setDoneError, setDone]

/-- Replica sending is in order and at most once, in every run of `send`, `wait`
and `abort` under any answers of the network: for each destination the items
handed to the network are a subsequence of the accepted ones without repetition,
with the message they were made with; every item that left a queue is done; an
item is done without error exactly if it was handed over once; and an item
aborted before it was sent is never sent. -/
theorem replica_messages_ordered_once (dest : ItemId → InstanceID) (msg : ItemId → M)
    (events : List Event) :
    let s := run step (RepState.init dest msg) events
    (∀ d, ((s.handed.filter (·.instanceId = d)).map Handed.item).Sublist
        (s.accepted.filter (dest · = d)) ∧
      ((s.handed.filter (·.instanceId = d)).map Handed.item).Nodup) ∧
    (∀ h ∈ s.handed, h.chunkMsg = some (msg h.item)) ∧
    (∀ id ∈ s.left, (s.items id).isDone = true) ∧
    (∀ id, ((s.items id).isDone = true ∧ (s.items id).error = none) ↔
      (s.handed.map Handed.item).count id = 1) ∧
    (∀ id, id ∉ s.handed.map Handed.item → ∀ later : List Event,
      id ∉ (run step (step s (.abort id)) later).handed.map Handed.item) := by
  intro s
  have hs : QueueInv dest msg s := (run_keeps step_keeps (queueInv_init dest msg) events).1
  refine ⟨?_, fun h hh => (hs.handed_eq h hh).2, hs.left_done, ?_, ?_⟩
  · intro d
    have hfilter : (s.handed.filter (·.instanceId = d)).map Handed.item =
        (s.handed.map Handed.item).filter (dest · = d) := by
      rw [filter_map]
      congr 1
      apply filter_congr
      intro h hh
      simp [(hs.handed_eq h hh).1]
    rw [hfilter, ← hs.order]
    exact ⟨(hs.handed_sublist.filter _).trans (sublist_append_left _ _), hs.handed_nodup.filter _⟩
  · intro id
    rw [← hs.mem_handed]
    exact ⟨count_eq_one_of_mem hs.handed_nodup, fun h => count_pos_iff.mp (by omega)⟩
  · intro id hunsent later
    obtain ⟨hdone, herr⟩ := abort_unsent hs hunsent
    obtain ⟨hinv, hset⟩ := run_keeps step_keeps (step_keeps s (.abort id) hs).1 later
    rw [hinv.mem_handed, hset id hdone]
    exact fun h => herr h.2

/-- An item refused by flow control and then aborted is skipped when the next
item for the same instance is sent. -/
theorem replica_messages_abort_stalled :
    0 ∉ (run step (step (run step (RepState.init (fun _ => 7) (fun id => id))
        [.send 0 ⟨.overflow, false⟩]) (.abort 0))
      [.send 1 ⟨.sent, false⟩, .wait 1 fun _ => ⟨⟨.sent, false⟩, false, true⟩]).handed.map
        Handed.item :=
  (replica_messages_ordered_once (fun _ => 7) (fun id => id)
    [.send 0 ⟨.overflow, false⟩]).2.2.2.2 0 (by decide +kernel) _

end SciDB.Replication
