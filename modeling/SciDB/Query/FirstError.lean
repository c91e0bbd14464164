import SciDB.Query.Completion

/-!
# The announcement of the first error

The sections under `errorMutex` of `src/query/Query.cpp` record an error if the query has none.
The call that has recorded an error publishes it to the subscribers of exceptions after it has
left its section.  A call goes on in steps of its own between those of other calls.

`handleAbort` returns out of its section if the query is still in progress, before it publishes.

Main results:

- Theorem {lit}`announcesFirst_iff`: the first error stays, and its call has published it once
  and alone when it returns, unless a running query without an error is aborted.
-/

namespace SciDB.Query.FirstError

open Runs Completion List

/-! ## The calls -/

/-- The routines that record an error, and `done`, which can go on to one of them. -/
inductive Routine
  | handleError (e : ErrorCode)
  | done
  | doneWith (e : ErrorCode)
  | handleAbort
  | handleCommit
  | handleLivenessNotification (version : Nat)

/-- `SCIDB_LE_NO_QUORUM` -/
def noQuorum : ErrorCode := .other 63

variable {α : Type}

/-- `msg`: the error that a section has recorded. -/
def recorded (q q' : State α) : Option ErrorCode :=
  if q.error = none then q'.error else none

/-- The section of a routine, with its `msg` and the routine that the call goes on to.  The
error handlers and finalizers that it runs after the publication are in `Completion`. -/
def perform (coordinatorLiveness : Nat) (q : State α) :
    Routine → State α × Option ErrorCode × Option Routine
  | .handleError e => (q.handleError e, recorded q (q.handleError e), none)
  | .done => (q.done.1, none, if q.done.2 then some .handleCommit else none)
  | .doneWith e =>
    ((q.doneWith e).1, recorded q (q.doneWith e).1,
      if (q.doneWith e).2 then some .handleAbort else none)
  | .handleAbort =>
    match q.handleAbort with
    | .error _ => (q, none, none)
    | .ok (q', _, _) =>
      (q', if q.completionStatus = .start then none else recorded q q', none)
  | .handleCommit =>
    match q.handleCommit with
    | .error _ => (q, none, none)
    | .ok (q', _, _) => (q', recorded q q', none)
  | .handleLivenessNotification version =>
    if version = coordinatorLiveness then (q, none, none)
    else (q.handleError noQuorum, recorded q (q.handleError noQuorum), none)

/-- A call: the error it has recorded, and what it still has to publish and to enter. -/
structure Call where
  error : Option ErrorCode
  msg : Option ErrorCode
  next : Option Routine

/-- A query, the calls on it, and what was published. -/
structure System (α : Type) where
  query : State α
  coordinatorLiveness : Nat
  calls : List Call
  published : List ErrorCode

inductive Event
  | start
  | stop
  | setAutoCommit
  | call (f : Routine)
  | resume (call : Nat)

namespace System

def init (coordinatorLiveness : Nat) : System α :=
  ⟨⟨.init, .unknown, none, false, [], []⟩, coordinatorLiveness, [], []⟩

variable (S : System α)

def resume (i : Nat) : System α :=
  match S.calls[i]? with
  | some ⟨error, some e, next⟩ =>
    { S with calls := S.calls.set i ⟨error, none, next⟩, published := S.published ++ [e] }
  | some ⟨error, none, some f⟩ =>
    let (q, msg, next) := perform S.coordinatorLiveness S.query f
    { S with query := q, calls := S.calls.set i ⟨error.or (recorded S.query q), msg, next⟩ }
  | _ => S

def step : Event → System α
  | .start => { S with query := S.query.start }
  | .stop => { S with query := S.query.stop }
  | .setAutoCommit => { S with query := { S.query with isAutoCommit := true } }
  | .call f => { S with calls := S.calls ++ [⟨none, none, some f⟩] }
  | .resume i => S.resume i

end System

/-! ## What is promised -/

/-- An error stays, nothing else is ever published, and a call that has recorded an error has
published it when it returns. -/
structure AnnouncesFirst (S : System α) (e : Event) : Prop where
  fixed : ∀ x, S.query.error = some x → (S.step e).query.error = some x
  alone : (S.step e).published <+ (S.step e).query.error.toList
  announced : ∀ c ∈ (S.step e).calls, c.msg = none → c.next = none →
    ∀ x, c.error = some x → (S.step e).published = [x]

/-- A running query without an error that can be aborted. -/
def Running (q : State α) : Prop :=
  q.error = none ∧ q.completionStatus = .start ∧ q.commitState ≠ .committed ∧ q.isAutoCommit = false

/-- No call enters `handleAbort` of a running query without an error. -/
def Heard (S : System α) (e : Event) : Prop :=
  ∀ i error, e = .resume i → S.calls[i]? = some ⟨error, none, some .handleAbort⟩ → ¬Running S.query

/-! ## What one section records -/

variable {q q' : State α} {msg : Option ErrorCode} {S : System α} {e : ErrorCode} {f : Routine}

/-- An error there is stays, and one that is recorded is to be published. -/
def Records (q q' : State α) (msg : Option ErrorCode) : Prop :=
  (∀ x, q.error = some x → q'.error = some x) ∧ msg = recorded q q'

theorem recorded_of_eq (h : q'.error = q.error) : recorded q q' = none := by
  rw [recorded, h]
  split
  · assumption
  · rfl

theorem records_same (h : q'.error = q.error) : Records q q' none :=
  ⟨fun _ hx => h.trans hx, (recorded_of_eq h).symm⟩

theorem records_or (h : q'.error = q.error.or (some e)) : Records q q' (recorded q q') := by
  refine ⟨?_, rfl⟩
  intro x hx
  rw [h, hx]
  rfl

theorem perform_records (version : Nat) (hf : f = .handleAbort → ¬Running q) :
    Records q (perform version q f).1 (perform version q f).2.1 := by
  cases f with
  | handleError e => exact records_or rfl
  | done =>
    apply records_same
    rw [perform, State.done]
    split_ifs <;> rfl
  | doneWith e => exact records_or rfl
  | handleAbort =>
    rw [perform, State.handleAbort]
    by_cases hcommitted : q.commitState = .committed
    · rw [if_pos hcommitted]
      exact records_same rfl
    by_cases hauto : q.isAutoCommit ∧ q.completionStatus = .start
    · rw [if_neg hcommitted, if_pos hauto]
      exact records_same rfl
    rw [if_neg hcommitted, if_neg hauto]
    by_cases hstart : q.completionStatus = .start
    · -- the running query has an error, so that nothing is recorded
      have hsome : q.error ≠ none := fun hnone =>
        hf rfl ⟨hnone, hstart, hcommitted, by simpa [hstart] using hauto⟩
      obtain ⟨x, hx⟩ := Option.ne_none_iff_exists'.mp hsome
      simp only [hstart]
      apply records_same
      rw [hx]
      rfl
    · simp only [hstart]
      exact records_or rfl
  | handleCommit =>
    rw [perform, State.handleCommit]
    by_cases hno : q.completionStatus ≠ .ok ∨ q.commitState = .aborted
    · rw [if_pos hno]
      exact records_same rfl
    · rw [if_neg hno]
      exact records_or rfl
  | handleLivenessNotification v =>
    rw [perform]
    split_ifs
    · exact records_same rfl
    · exact records_or rfl

/-! ## Runs -/

/-- What was published and what calls still have to publish is the error of the query. -/
structure Inv (S : System α) : Prop where
  log : S.published ++ S.calls.flatMap (fun c => c.msg.toList) = S.query.error.toList
  owed : ∀ c ∈ S.calls, ∀ x, c.error = some x →
    S.query.error = some x ∧ (S.published = [] → c.msg ≠ none)

theorem inv_init (version : Nat) : Inv (System.init version : System α) := ⟨rfl, nofun⟩

/-- A step that only changes the query, and keeps its error. -/
theorem Inv.query (h : Inv S) (hq : q.error = S.query.error) :
    Inv { S with query := q } ∧ ∀ x, S.query.error = some x → q.error = some x :=
  ⟨⟨h.log.trans (congrArg _ hq.symm), fun c hc x hx =>
    ⟨hq.trans (h.owed c hc x hx).1, (h.owed c hc x hx).2⟩⟩, fun _ => hq.trans⟩

variable {front back : List Call} {c : Call} {error : Option ErrorCode} {next : Option Routine}

/-- What holds of all calls holds after one of them has gone on. -/
theorem forall_mem_replace {p p' : Call → Prop} {c' : Call} (h : ∀ x ∈ front ++ c :: back, p x)
    (hp : ∀ x, p x → p' x) (hc' : p c → p' c') : ∀ x ∈ front ++ c' :: back, p' x := by
  simp only [mem_append, mem_cons] at h ⊢
  rintro x (hx | rfl | hx)
  · exact hp x (h x (.inl hx))
  · exact hc' (h c (.inr (.inl rfl)))
  · exact hp x (h x (.inr (.inr hx)))

theorem Inv.publish (h : Inv S)
    (hcalls : S.calls = front ++ ⟨error, some e, next⟩ :: back) :
    Inv { S with calls := front ++ ⟨error, none, next⟩ :: back,
                 published := S.published ++ [e] } := by
  obtain ⟨hlog, howed⟩ := h
  rw [hcalls] at hlog howed
  have hne : S.published ++ [e] ≠ [] := append_ne_nil_of_right_ne_nil _ (cons_ne_nil _ _)
  refine ⟨?_, forall_mem_replace howed (fun c hc x hx => ⟨(hc x hx).1, fun h => absurd h hne⟩)
    fun hc x hx => ⟨(hc x hx).1, fun h => absurd h hne⟩⟩
  rw [flatMap_append, flatMap_cons, Option.toList_some] at hlog
  -- the log has at most one entry, so that no other call has anything to publish
  have hfront : front.flatMap (fun c => c.msg.toList) = [] := by
    have hlen := congrArg length hlog
    have hone := Option.length_toList_le (o := S.query.error)
    simp only [length_append, length_cons] at hlen
    rw [← length_eq_zero_iff]
    omega
  rw [flatMap_append, ← hlog, hfront]
  simp

theorem Inv.enter (h : Inv S)
    (hcalls : S.calls = front ++ ⟨error, none, some f⟩ :: back) (hq : Records S.query q msg) :
    Inv { S with query := q,
                 calls := front ++ ⟨error.or (recorded S.query q), msg, next⟩ :: back } := by
  obtain ⟨hlog, howed⟩ := h
  rw [hcalls] at hlog howed
  rw [flatMap_append, flatMap_cons, Option.toList_none, nil_append] at hlog
  obtain ⟨hkept, rfl⟩ := hq
  cases he : S.query.error with
  | none =>
    have hrecorded : recorded S.query q = q.error := if_pos he
    rw [he, Option.toList_none, append_eq_nil_iff, append_eq_nil_iff] at hlog
    rw [hrecorded]
    refine ⟨?_, forall_mem_replace howed (fun c hc x hx => ?_) fun hc x hx => ?_⟩
    · rw [flatMap_append, flatMap_cons, hlog.1, hlog.2.1, hlog.2.2]
      exact append_nil _
    · cases he.symm.trans (hc x hx).1
    · have hnone : error = none := Option.eq_none_iff_forall_ne_some.mpr fun y hy => by
        cases he.symm.trans (hc y hy).1
      rw [hnone] at hx
      exact ⟨hx, fun _ => ne_of_eq_of_ne hx (Option.some_ne_none x)⟩
  | some y =>
    have hy := hkept y he
    have hrecorded : recorded S.query q = none := if_neg (by simp [he])
    rw [hrecorded, Option.or_none]
    refine ⟨?_, forall_mem_replace howed (fun c hc x hx => ?_) fun hc x hx => ?_⟩
    · rw [flatMap_append, hy, ← he]
      exact hlog
    · exact ⟨hy.trans (he ▸ (hc x hx).1), (hc x hx).2⟩
    · exact ⟨hy.trans (he ▸ (hc x hx).1), (hc x hx).2⟩

theorem Inv.step (h : Inv S) {e : Event} (he : Heard S e) :
    Inv (S.step e) ∧ ∀ x, S.query.error = some x → (S.step e).query.error = some x := by
  cases e with
  | start =>
    apply h.query
    rw [State.start]
    split_ifs <;> rfl
  | stop =>
    apply h.query
    rw [State.stop]
    split_ifs <;> rfl
  | setAutoCommit => exact h.query rfl
  | call f =>
    refine ⟨⟨?_, forall_mem_concat h.owed nofun⟩, fun _ => id⟩
    simpa [System.step] using h.log
  | resume i =>
    rw [System.step, System.resume]
    cases hi : S.calls[i]? with
    | none => exact ⟨h, fun _ => id⟩
    | some c =>
      obtain ⟨hlt, hc⟩ := List.getElem?_eq_some_iff.mp hi
      obtain ⟨error, _ | e, next⟩ := c
      · cases next with
        | none => exact ⟨h, fun _ => id⟩
        | some f =>
          have hq := perform_records S.coordinatorLiveness fun hf =>
            he i error rfl (hf ▸ hi)
          obtain ⟨front, back, hcalls, -, hset⟩ := exists_of_set hlt
          rw [hc] at hcalls
          dsimp only
          rw [hset]
          exact ⟨h.enter hcalls hq, hq.1⟩
      · obtain ⟨front, back, hcalls, -, hset⟩ := exists_of_set hlt
        rw [hc] at hcalls
        dsimp only
        rw [hset]
        exact ⟨h.publish hcalls, fun _ => id⟩

/-- The abort of a running query returns without a word. -/
theorem not_announcesFirst (h : Inv S) {i : Nat}
    (hi : S.calls[i]? = some ⟨error, none, some .handleAbort⟩) (hq : Running S.query) :
    ¬AnnouncesFirst S (.resume i) := by
  obtain ⟨herror, hstart, hcommitted, hauto⟩ := hq
  have hlog := h.log
  rw [herror, Option.toList_none, append_eq_nil_iff] at hlog
  have hlt := (List.getElem?_eq_some_iff.mp hi).1
  have hstep : S.step (.resume i) =
      { S with query := { S.query with commitState := .aborted, error := some .queryCancelled },
               calls := S.calls.set i ⟨error.or (some .queryCancelled), none, none⟩ } := by
    simp [System.step, System.resume, hi, perform, State.handleAbort, recorded, herror, hstart,
      hcommitted, hauto]
  rintro ⟨-, -, hannounced⟩
  rw [hstep] at hannounced
  obtain ⟨x, hx⟩ := Option.ne_none_iff_exists'.mp (or_some_ne_none error .queryCancelled)
  have hone := hannounced _ (mem_set hlt _) rfl rfl x hx
  rw [show S.published = [] from hlog.1] at hone
  cases hone

/-- The first error of a query stays, and the call that has recorded it has published it, once
and nothing else, when it returns, if and only if no running query without an error is aborted. -/
theorem announcesFirst_iff (coordinatorLiveness : Nat) (events : List Event) :
    Throughout System.step AnnouncesFirst (System.init coordinatorLiveness : System α) events ↔
      Throughout System.step Heard (System.init coordinatorLiveness : System α) events := by
  refine throughout_iff (fun S e h he => (h.step he).1) (fun S e h => ⟨?_, fun he => ?_⟩)
    (inv_init _)
  · rintro hannounces i error rfl hi hq
    exact not_announcesFirst h hi hq hannounces
  · obtain ⟨h', hfixed⟩ := h.step he
    refine ⟨hfixed, h'.log ▸ sublist_append_left _ _, ?_⟩
    intro c hc hmsg _ x hx
    obtain ⟨herror, howed⟩ := h'.owed c hc x hx
    have hlog := h'.log
    rw [herror, Option.toList_some, append_eq_singleton_iff] at hlog
    rcases hlog with ⟨hnone, -⟩ | ⟨hone, -⟩
    · exact absurd hmsg (howed hnone)
    · exact hone

/-- A query is started, and aborted. -/
theorem aborted_unheard :
    ¬Throughout System.step AnnouncesFirst (System.init 1 : System Unit)
      [.start, .call .handleAbort, .resume 0] := by
  rintro ⟨-, -, h, -⟩
  exact absurd (h.announced _ mem_cons_self rfl rfl _ rfl) (by decide)

end SciDB.Query.FirstError
