import SciDB.Lib.Runs

/-!
# Commit and abort of a query

The sections under `errorMutex` of `src/query/Query.cpp`, in a release build.  Each section is
one step.  What a call does after its section, it does in steps of its own between those of
other calls: it takes its next section, or runs one of its error handlers or finalizers.

`done` does not look at the commit state of an auto-commit query, so that a query can be
committed after it was aborted.

Main results:

- Theorem {lit}`decidesOnce_iff`: a query commits or aborts, and runs what was registered
  accordingly, unless it is done in auto-commit mode after an abort.
-/

namespace SciDB.Query.Completion

open Runs List

/-! ## The sections -/

inductive CompletionStatus
  | init
  | start
  | ok
  | error
deriving DecidableEq

inductive CommitState
  | unknown
  | committed
  | aborted
deriving DecidableEq

/-- The error codes, as far as the sections tell them apart. -/
inductive ErrorCode
  | queryCancelled
  | queryAlreadyCommited
  | other (code : Nat)
deriving DecidableEq

/-- What a call runs. -/
inductive Task (α : Type)
  | errorHandler (x : α)
  | finalizer (x : α)
deriving DecidableEq

/-- The variables of a query.  No error is `SCIDB_E_NO_ERROR`. -/
structure State (α : Type) where
  completionStatus : CompletionStatus
  commitState : CommitState
  error : Option ErrorCode
  isAutoCommit : Bool
  errorHandlers : List α
  finalizers : List α

/-- `SCIDB_LE_INVALID_COMMIT_STATE` with the call put into its message. -/
inductive Fault
  | invalidCommitState (call : String)

variable {α : Type}

/-- Error handlers and then finalizers, both from the last registration to the first. -/
def batch (errorHandlers finalizers : List α) : List (Task α) :=
  errorHandlers.reverse.map .errorHandler ++ finalizers.reverse.map .finalizer

namespace State

variable (q : State α)

/-- Whether `checkNoError` returns. -/
def checkNoError : Bool :=
  (q.isAutoCommit && q.commitState = .committed && q.error = some .queryAlreadyCommited) ||
    q.error = none

def start : State α :=
  if q.checkNoError ∧ q.completionStatus = .init then { q with completionStatus := .start } else q

def stop : State α :=
  if q.checkNoError ∧ q.completionStatus = .start then { q with completionStatus := .init } else q

/-- `pushErrorHandler` and `pushFinalizer`, if `checkNoError` returns. -/
def push : Task α → State α
  | .errorHandler x => { q with errorHandlers := q.errorHandlers ++ [x] }
  | .finalizer x => { q with finalizers := q.finalizers ++ [x] }

def handleError (e : ErrorCode) : State α := { q with error := q.error.or (some e) }

/-- `done()`, and whether `handleComplete` follows. -/
def done : State α × Bool :=
  if ¬q.isAutoCommit ∧ q.error ≠ none then ({ q with completionStatus := .error }, false)
  else if q.isAutoCommit then
    ({ q with completionStatus := .ok, commitState := .committed }, true)
  else ({ q with completionStatus := .ok }, false)

/-- `done` with an exception, and whether `handleAbort` follows. -/
def doneWith (e : ErrorCode) : State α × Bool :=
  ({ q with error := q.error.or (some e), completionStatus := .error }, q.commitState ≠ .unknown)

/-- The section of `handleAbort`, and the lists it takes.  The abort of a running query is
left to `done`. -/
def handleAbort : Except Fault (State α × List α × List α) :=
  if q.commitState = .committed then .error (.invalidCommitState "abort")
  else if q.isAutoCommit ∧ q.completionStatus = .start then .error (.invalidCommitState "abort")
  else
    let q' := { q with commitState := .aborted, error := q.error.or (some .queryCancelled) }
    if q.completionStatus = .start then .ok (q', [], [])
    else .ok ({ q' with errorHandlers := [], finalizers := [] }, q.errorHandlers, q.finalizers)

/-- The section of `handleCommit`, and the lists it takes. -/
def handleCommit : Except Fault (State α × List α × List α) :=
  if q.completionStatus ≠ .ok ∨ q.commitState = .aborted then
    .error (.invalidCommitState "commit")
  else
    .ok ({ q with errorHandlers := [], commitState := .committed, finalizers := [],
                  error := q.error.or (some .queryAlreadyCommited) }, [], q.finalizers)

end State

/-! ## Interleavings -/

/-- What a call has come to. -/
inductive Call (α : Type)
  | handleAbort
  | handleCommit
  | threw
  | invoking (errorHandlers finalizers : List α) (n : Nat)

namespace Call

/-- What a call has taken. -/
def tasks : Call α → List (Task α)
  | .invoking xs ys _ => batch xs ys
  | _ => []

/-- The number of tasks a call has run. -/
def count : Call α → Nat
  | .invoking _ _ n => n
  | _ => 0

def ran (c : Call α) : List (Task α) := c.tasks.take c.count

end Call

/-- A query with the calls that work on it, and all that was ever registered. -/
structure System (α : Type) where
  query : State α
  calls : List (Call α)
  registered : List (Task α)

inductive Event (α : Type)
  | start
  | stop
  | setAutoCommit
  | push (t : Task α)
  | handleError (e : ErrorCode)
  | done
  | doneWith (e : ErrorCode)
  | handleAbort
  | handleCommit
  | resume (call : Nat)

namespace System

def init : System α := ⟨⟨.init, .unknown, none, false, [], []⟩, [], []⟩

variable (S : System α)

/-- The end of a section that may throw. -/
def finish (i : Nat) : Except Fault (State α × List α × List α) → System α
  | .error _ => { S with calls := S.calls.set i .threw }
  | .ok (q, xs, ys) => { S with query := q, calls := S.calls.set i (.invoking xs ys 0) }

def resume (i : Nat) : System α :=
  match S.calls[i]? with
  | some .handleAbort => S.finish i S.query.handleAbort
  | some .handleCommit => S.finish i S.query.handleCommit
  | some (.invoking xs ys n) => { S with calls := S.calls.set i (.invoking xs ys (n + 1)) }
  | _ => S

/-- The end of a section that cannot throw, with the call that follows it. -/
def next (q : State α) (calls : List (Call α)) : System α :=
  { S with query := q, calls := S.calls ++ calls }

def step : Event α → System α
  | .start => S.next S.query.start []
  | .stop => S.next S.query.stop []
  | .setAutoCommit => S.next { S.query with isAutoCommit := true } []
  | .push t =>
    if S.query.checkNoError then
      { S with query := S.query.push t, registered := S.registered ++ [t] }
    else S
  | .handleError e => S.next (S.query.handleError e) []
  | .done => S.next S.query.done.1 (if S.query.done.2 then [.handleCommit] else [])
  | .doneWith e =>
    S.next (S.query.doneWith e).1 (if (S.query.doneWith e).2 then [.handleAbort] else [])
  | .handleAbort => S.next S.query [.handleAbort]
  | .handleCommit => S.next S.query [.handleCommit]
  | .resume i => S.resume i

end System

/-! ## What a query promises -/

/-- A task may be run now. -/
def State.Allows (q : State α) : Task α → Prop
  | .errorHandler _ => q.commitState = .aborted ∧ q.completionStatus ≠ .start
  | .finalizer _ => q.completionStatus ≠ .start

/-- Lists of error handlers and finalizers in the order in which they were registered. -/
def Listed (registered : List (Task α)) (errorHandlers finalizers : List α) : Prop :=
  errorHandlers.map .errorHandler <+ registered ∧ finalizers.map .finalizer <+ registered

/-- A commit state other than unknown is final. -/
def Decided (q q' : State α) : Prop := q.commitState ≠ .unknown → q'.commitState = q.commitState

/-- A step keeps the decision, the task that it runs may be run, no task has been run more
often than it was registered, each call runs its tasks in order, and none after a throw. -/
structure DecidesOnce [DecidableEq α] (S : System α) (e : Event α) : Prop where
  decided : Decided S.query (S.step e).query
  allows : ∀ i c t, e = .resume i → S.calls[i]? = some c → c.tasks[c.count]? = some t →
    S.query.Allows t
  once : ∀ t, ((S.step e).calls.flatMap Call.ran).count t ≤ (S.step e).registered.count t
  order : ∀ c ∈ (S.step e).calls, ∃ xs ys, Listed (S.step e).registered xs ys ∧
    c.ran <+: batch xs ys
  threw : ∀ i : Nat, S.calls[i]? = some .threw → (S.step e).calls[i]? = some .threw

/-- An auto-commit query that was aborted is not done. -/
def Timely (S : System α) (e : Event α) : Prop :=
  ¬(e = .done ∧ S.query.isAutoCommit = true ∧ S.query.commitState = .aborted)

/-! ## Sections keep what calls rely on -/

/-- A query whose finalizers may run: it will not be started any more. -/
def State.Settled (q : State α) : Prop :=
  q.completionStatus ≠ .start ∧
    (q.completionStatus = .init → q.error ≠ none ∧ q.commitState = .aborted)

/-- What a section does to a query. -/
structure State.Keeps (q q' : State α) : Prop where
  decided : Decided q q'
  settled : q.Settled → q'.Settled

variable {q q' : State α} {S S' : System α} {i : Nat} {xs ys : List α}

theorem or_some_ne_none {β : Type} (o : Option β) (x : β) : o.or (some x) ≠ none := by
  cases o <;> simp

theorem keeps_start (q : State α) : q.Keeps q.start := by
  unfold State.start
  split
  · rename_i h
    refine ⟨fun _ => rfl, fun hs => ?_⟩
    -- an aborted query has an error, and is not started
    have hinit := hs.2 h.2
    simp [State.checkNoError, hinit.1, hinit.2] at h
  · exact ⟨fun _ => rfl, id⟩

theorem keeps_stop (q : State α) : q.Keeps q.stop := by
  unfold State.stop
  split
  · rename_i h
    exact ⟨fun _ => rfl, fun hs => absurd h.2 hs.1⟩
  · exact ⟨fun _ => rfl, id⟩

theorem keeps_done (h : ¬(q.isAutoCommit = true ∧ q.commitState = .aborted)) :
    q.Keeps q.done.1 := by
  unfold State.done
  split
  · exact ⟨fun _ => rfl, fun _ => ⟨nofun, nofun⟩⟩
  · split
    · refine ⟨fun hknown => ?_, fun _ => ⟨nofun, nofun⟩⟩
      cases hc : q.commitState <;> simp_all
    · exact ⟨fun _ => rfl, fun _ => ⟨nofun, nofun⟩⟩

/-- What a section that takes tasks does. -/
structure Takes (q q' : State α) (xs ys : List α) : Prop where
  keeps : q.Keeps q'
  errorHandlers : xs ++ q'.errorHandlers <+ q.errorHandlers
  finalizers : ys ++ q'.finalizers <+ q.finalizers
  settled : batch xs ys ≠ [] → q'.Settled
  aborted : xs ≠ [] → q'.commitState = .aborted

theorem takes_handleAbort (h : q.handleAbort = .ok (q', xs, ys)) : Takes q q' xs ys := by
  unfold State.handleAbort at h
  split at h <;> [contradiction; skip]
  split at h <;> [contradiction; skip]
  have hdecided : q.commitState ≠ .unknown → CommitState.aborted = q.commitState := by
    cases hc : q.commitState <;> simp_all
  have hcancelled := or_some_ne_none q.error .queryCancelled
  split at h <;> cases h
  · exact ⟨⟨hdecided, fun hs => ⟨hs.1, fun _ => ⟨hcancelled, rfl⟩⟩⟩, .refl _, .refl _,
      fun hne => absurd rfl hne, fun _ => rfl⟩
  · rename_i hstart
    refine ⟨⟨hdecided, fun _ => ?_⟩, by simp, by simp, fun _ => ?_, fun _ => rfl⟩ <;>
      exact ⟨hstart, fun _ => ⟨hcancelled, rfl⟩⟩

theorem takes_handleCommit (h : q.handleCommit = .ok (q', xs, ys)) : Takes q q' xs ys := by
  unfold State.handleCommit at h
  split at h <;> cases h
  rename_i hok
  obtain ⟨hok, haborted⟩ := not_or.1 hok
  have hdecided : q.commitState ≠ .unknown → CommitState.committed = q.commitState := by
    cases hc : q.commitState <;> simp_all
  have hok : q.completionStatus = .ok := not_not.1 hok
  refine ⟨⟨hdecided, fun _ => ?_⟩, by simp, by simp, fun _ => ?_, by simp⟩ <;>
    simp [State.Settled, hok]

/-! ## What holds between the steps -/

/-- What a call with tasks relies on. -/
structure Pending (q : State α) (registered : List (Task α)) (xs ys : List α) : Prop where
  listed : Listed registered xs ys
  settled : batch xs ys ≠ [] → q.Settled
  aborted : xs ≠ [] → q.commitState = .aborted

/-- The tasks of all calls, and those that are still registered. -/
def System.tasks (S : System α) : List (Task α) :=
  S.calls.flatMap Call.tasks ++ batch S.query.errorHandlers S.query.finalizers

structure Inv [DecidableEq α] (S : System α) : Prop where
  counted : ∀ t, S.tasks.count t ≤ S.registered.count t
  listed : Listed S.registered S.query.errorHandlers S.query.finalizers
  pending : ∀ xs ys n, .invoking xs ys n ∈ S.calls → Pending S.query S.registered xs ys

theorem Listed.mono {r r' : List (Task α)} {xs' ys' : List α} (h : Listed r xs ys)
    (hr : r <+ r') (hxs : xs' <+ xs) (hys : ys' <+ ys) : Listed r' xs' ys' :=
  ⟨((hxs.map _).trans h.1).trans hr, ((hys.map _).trans h.2).trans hr⟩

theorem Pending.keep {r r' : List (Task α)} (h : Pending q r xs ys) (hk : q.Keeps q')
    (hr : r <+ r') : Pending q' r' xs ys where
  listed := h.listed.mono hr (.refl _) (.refl _)
  settled hts := hk.settled (h.settled hts)
  aborted hxs := (hk.decided (by simp [h.aborted hxs])).trans (h.aborted hxs)

variable [DecidableEq α]

theorem inv_init : Inv (System.init : System α) := by
  constructor <;> simp [System.init, System.tasks, Listed, batch]

theorem count_batch (xs ys : List α) (t : Task α) : (batch xs ys).count t =
    (xs.map Task.errorHandler).count t + (ys.map Task.finalizer).count t := by
  simp [batch]

section
variable (h : Inv S) {c : Call α}
include h

/-- A step after which each call with tasks is an old one or relies on no more than holds. -/
theorem Inv.move (hk : S.query.Keeps S'.query) (hr : S.registered <+ S'.registered)
    (hlisted : Listed S'.registered S'.query.errorHandlers S'.query.finalizers)
    (hcounted : ∀ t, S'.tasks.count t + S.registered.count t ≤
      S.tasks.count t + S'.registered.count t)
    (hpending : ∀ xs ys n, .invoking xs ys n ∈ S'.calls →
      (∃ m, .invoking xs ys m ∈ S.calls) ∨ Pending S'.query S'.registered xs ys) : Inv S' := by
  refine ⟨fun t => ?_, hlisted, fun xs ys n hn => ?_⟩
  · have := h.counted t
    have := hcounted t
    omega
  · rcases hpending xs ys n hn with ⟨m, hm⟩ | hnew
    · exact (h.pending xs ys m hm).keep hk hr
    · exact hnew

theorem Inv.next (hk : S.query.Keeps q) (he : q.errorHandlers = S.query.errorHandlers)
    (hf : q.finalizers = S.query.finalizers) {calls : List (Call α)}
    (hcalls : ∀ c ∈ calls, c = .handleAbort ∨ c = .handleCommit) : Inv (S.next q calls) := by
  refine h.move hk (.refl _) (by simpa [System.next, he, hf] using h.listed) (fun t => ?_)
    fun xs ys n hn => ?_
  · have hnone : calls.flatMap Call.tasks = [] := by
      simp only [flatMap_eq_nil_iff]
      rintro c hc
      rcases hcalls c hc with rfl | rfl <;> rfl
    simp [System.tasks, System.next, he, hf, hnone]
  · rcases mem_append.1 hn with hn | hn
    · exact .inl ⟨n, hn⟩
    · rcases hcalls _ hn with hc | hc <;> cases hc

theorem Inv.push (t : Task α) :
    Inv { S with query := S.query.push t, registered := S.registered ++ [t] } := by
  obtain ⟨he, hf⟩ := h.listed
  cases t with
  | errorHandler x =>
    refine h.move ⟨fun _ => rfl, id⟩ (by simp) ⟨by simpa [State.push] using he, hf.trans (by simp)⟩
      (fun t => ?_) fun xs ys n hn => .inl ⟨n, hn⟩
    simp [System.tasks, State.push, count_batch]
    omega
  | finalizer x =>
    refine h.move ⟨fun _ => rfl, id⟩ (by simp) ⟨he.trans (by simp), by simpa [State.push] using hf⟩
      (fun t => ?_) fun xs ys n hn => .inl ⟨n, hn⟩
    simp [System.tasks, State.push, count_batch]
    omega

/-- One call goes on. -/
theorem Inv.set {c' : Call α} (hi : S.calls[i]? = some c) (hk : S.query.Keeps q)
    (he : q.errorHandlers <+ S.query.errorHandlers) (hf : q.finalizers <+ S.query.finalizers)
    (hcounted : ∀ t, c'.tasks.count t + (batch q.errorHandlers q.finalizers).count t ≤
      c.tasks.count t + (batch S.query.errorHandlers S.query.finalizers).count t)
    (hpending : ∀ xs ys n, c' = .invoking xs ys n →
      (∃ m, .invoking xs ys m ∈ S.calls) ∨ Pending q S.registered xs ys) :
    Inv { S with query := q, calls := S.calls.set i c' } := by
  refine h.move hk (.refl _) (h.listed.mono (.refl _) he hf) (fun t => ?_) fun xs ys n hn => ?_
  · obtain ⟨before, after, hcalls, rfl⟩ :
        ∃ before after, S.calls = before ++ c :: after ∧ before.length = i := by
      obtain ⟨hlt, rfl⟩ := List.getElem?_eq_some_iff.1 hi
      exact ⟨S.calls.take i, S.calls.drop (i + 1), by simp, by simp; omega⟩
    have := hcounted t
    simp [System.tasks, hcalls]
    omega
  · rcases mem_or_eq_of_mem_set hn with hn | hn
    · exact .inl ⟨n, hn⟩
    · exact hpending xs ys n hn.symm

theorem Inv.finish (hi : S.calls[i]? = some c)
    {r : Except Fault (State α × List α × List α)}
    (hr : ∀ q' xs ys, r = .ok (q', xs, ys) → Takes S.query q' xs ys) :
    S.query.Keeps (S.finish i r).query ∧ Inv (S.finish i r) := by
  match r with
  | .error f =>
    exact ⟨⟨fun _ => rfl, id⟩, h.set hi ⟨fun _ => rfl, id⟩ (.refl _) (.refl _)
      (fun t => by simp [Call.tasks]) nofun⟩
  | .ok (q', xs, ys) =>
    obtain ⟨hk, hxs, hys, hsettled, haborted⟩ := hr q' xs ys rfl
    refine ⟨hk, h.set hi hk ((sublist_append_right _ _).trans hxs)
      ((sublist_append_right _ _).trans hys) (fun t => ?_) ?_⟩
    · have hxs := (hxs.map Task.errorHandler).count_le t
      have hys := (hys.map Task.finalizer).count_le t
      simp only [Call.tasks, count_batch, map_append, count_append] at hxs hys ⊢
      omega
    · rintro _ _ _ ⟨⟩
      exact .inr ⟨h.listed.mono (.refl _) ((sublist_append_left _ _).trans hxs)
        ((sublist_append_left _ _).trans hys), hsettled, haborted⟩

/-! ## The decision -/

theorem Inv.step {e : Event α} (he : Timely S e) :
    S.query.Keeps (S.step e).query ∧ Inv (S.step e) := by
  have next {q} (hk : S.query.Keeps q) (hlists : q.errorHandlers = S.query.errorHandlers ∧
      q.finalizers = S.query.finalizers) {calls : List (Call α)}
      (hcalls : ∀ c ∈ calls, c = .handleAbort ∨ c = .handleCommit) :=
    And.intro hk (h.next hk hlists.1 hlists.2 hcalls)
  cases e with
  | start => exact next (keeps_start _) (by unfold State.start; split <;> simp) (by simp)
  | stop => exact next (keeps_stop _) (by unfold State.stop; split <;> simp) (by simp)
  | setAutoCommit =>
    exact next (q := { S.query with isAutoCommit := true }) ⟨fun _ => rfl, id⟩ ⟨rfl, rfl⟩ (by simp)
  | push t =>
    simp only [System.step]
    split
    · exact ⟨by cases t <;> exact ⟨fun _ => rfl, id⟩, h.push t⟩
    · exact ⟨⟨fun _ => rfl, id⟩, h⟩
  | handleError e =>
    refine next (q := S.query.handleError e) ⟨fun _ => rfl, fun hs => ⟨hs.1, fun hinit => ?_⟩⟩
      ⟨rfl, rfl⟩ (by simp)
    exact ⟨or_some_ne_none _ _, (hs.2 hinit).2⟩
  | done =>
    refine next (keeps_done fun hdone => he ⟨rfl, hdone⟩) ?_ ?_
    · unfold State.done
      split <;> [simp; split <;> simp]
    · split <;> simp
  | doneWith e =>
    refine next (q := (S.query.doneWith e).1) ⟨fun _ => rfl, fun _ => ⟨nofun, nofun⟩⟩ ⟨rfl, rfl⟩ ?_
    split <;> simp
  | handleAbort => exact next ⟨fun _ => rfl, id⟩ ⟨rfl, rfl⟩ (by simp)
  | handleCommit => exact next ⟨fun _ => rfl, id⟩ ⟨rfl, rfl⟩ (by simp)
  | resume i =>
    simp only [System.step, System.resume]
    split
    · exact h.finish ‹_› fun _ _ _ => takes_handleAbort
    · exact h.finish ‹_› fun _ _ _ => takes_handleCommit
    · rename_i xs ys n hi
      refine ⟨⟨fun _ => rfl, id⟩, h.set hi ⟨fun _ => rfl, id⟩ (.refl _) (.refl _)
        (fun t => by simp [Call.tasks]) ?_⟩
      rintro _ _ _ ⟨⟩
      exact .inl ⟨n, mem_of_getElem? hi⟩
    · exact ⟨⟨fun _ => rfl, id⟩, h⟩

theorem Inv.allows {t : Task α} (hi : S.calls[i]? = some c)
    (ht : c.tasks[c.count]? = some t) : S.query.Allows t := by
  have hmem := mem_of_getElem? ht
  cases c with
  | invoking xs ys n =>
    obtain ⟨-, hsettled, haborted⟩ := h.pending xs ys n (mem_of_getElem? hi)
    have hsettled := hsettled (ne_nil_of_mem hmem)
    cases t with
    | errorHandler x =>
      refine ⟨haborted ?_, hsettled.1⟩
      rintro rfl
      simp [Call.tasks, batch] at hmem
    | finalizer x => exact hsettled.1
  | _ => cases hmem

theorem Inv.order (hc : c ∈ S.calls) :
    ∃ xs ys, Listed S.registered xs ys ∧ c.ran <+: batch xs ys := by
  cases c with
  | invoking xs ys n => exact ⟨xs, ys, (h.pending xs ys n hc).listed, take_prefix _ _⟩
  | _ => exact ⟨[], [], ⟨nil_sublist _, nil_sublist _⟩, nil_prefix⟩

theorem Inv.once (t : Task α) : (S.calls.flatMap Call.ran).count t ≤ S.registered.count t := by
  have hran : (S.calls.flatMap Call.ran).count t ≤ (S.calls.flatMap Call.tasks).count t := by
    rw [count_flatMap, count_flatMap]
    exact sum_le_sum fun c _ => (take_sublist _ _).count_le t
  have hcounted := h.counted t
  rw [System.tasks, count_append] at hcounted
  omega

end

omit [DecidableEq α] in
theorem threw_step (hi : S.calls[i]? = some .threw) (e : Event α) :
    (S.step e).calls[i]? = some .threw := by
  have hlt := (List.getElem?_eq_some_iff.1 hi).1
  cases e with
  | push t =>
    simp only [System.step]
    split <;> exact hi
  | resume j =>
    by_cases hj : j = i
    · simp [System.step, System.resume, hj, hi]
    · simp only [System.step, System.resume, System.finish]
      split <;> [split; split; skip; skip] <;> simp [getElem?_set_ne hj, hi]
  | _ => simpa [System.step, System.next, getElem?_append_left hlt] using hi

/-- A query commits or aborts, and runs what was registered accordingly, if and only if it is
not done in auto-commit mode after an abort. -/
theorem decidesOnce_iff (events : List (Event α)) :
    Throughout System.step DecidesOnce System.init events ↔
      Throughout System.step Timely System.init events := by
  refine throughout_iff (fun S e h he => (h.step he).2) (fun S e h => ⟨?_, fun he => ?_⟩) inv_init
  · rintro ⟨hdecided, -⟩ ⟨rfl, hauto, haborted⟩
    simp [Decided, System.step, System.next, State.done, hauto, haborted] at hdecided
  · obtain ⟨hk, h'⟩ := h.step he
    exact ⟨hk.decided, fun i c t _ => h.allows, h'.once, fun c => h'.order, fun i hi =>
      threw_step hi e⟩

/-- The abort of an auto-commit query that has not been started, and then its end. -/
theorem aborted_then_committed :
    ¬Throughout System.step DecidesOnce (System.init : System Unit)
      [.setAutoCommit, .handleAbort, .resume 0, .done] := by
  rintro ⟨-, -, -, hdone, -⟩
  exact absurd (hdone.decided nofun) (by decide)

end SciDB.Query.Completion
