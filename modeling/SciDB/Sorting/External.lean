import SciDB.Lib.Checked
import SciDB.Lib.Runs
import SciDB.Lib.Strides
import SciDB.Sorting.Merge

/-!
# External sort

`SortArray::getSortedArray` (`src/array/SortArray.cpp`) sorts an array with a number of
jobs.  A sort job reads every `numJobs`-th chunk of the input into a buffer, sorts the
buffer when it has grown too large and puts it on the list of runs; it stops when the
list is too long and is started again later.  A merge job takes some runs off the front
of the list and puts the merged run at its back.  The main thread starts a new job
whenever one has stopped, until all input is read and few runs are left, and merges
those.

Everything that jobs share is done under one lock.  So a step of the model is what a job
does from one such section to the next, and a run is any interleaving of the steps of the
jobs and the main thread.  A step that would throw does not happen: the runs are those in
which no job fails.

Main results:

- Theorem {lit}`step_inv`: no step loses or adds a tuple.
- Theorem {lit}`sorts_iff`: the result is the sorted input without the skipped tuples, in
  every run that returns, if and only if there is a job or nothing to sort.
-/

namespace SciDB.Sorting

open Strides Runs List Function

/-! ## Configuration -/

/-- What a sort depends on: the comparator, the skipper, the size of a tuple and the
parameters of the configuration. -/
structure SortConfig (T : Type) where
  quicksort : Quicksort
  tupleComp : TupleComparator T
  skipper : T → Bool
  tupleBytes : T → Nat
  chunkSize : Nat
  numJobs : Nat
  memLimit : Nat
  mergeSortNStreams : Nat
  mergeSortPipelineLimit : Nat
  chunkSize_pos : 0 < chunkSize

namespace SortConfig

variable {T : Type} (cfg : SortConfig T)

/-- `_nStreams`, after it was validated. -/
def nStreams : Nat :=
  if cfg.mergeSortNStreams ≤ 1 then 2 else cfg.mergeSortNStreams

/-- `_pipelineLimit`, after it was validated. -/
def pipelineLimit : Nat :=
  let limit := if cfg.mergeSortPipelineLimit ≤ 1 then 2 else cfg.mergeSortPipelineLimit
  if limit < cfg.nStreams then cfg.nStreams else limit

/-- `TupleArray::append` of one chunk. -/
def append (buffer chunk : List T) : List T :=
  buffer ++ chunk.filter fun t => !cfg.skipper t

/-- `getSizeInBytes` -/
def sizeInBytes (buffer : List T) : Nat :=
  (buffer.map cfg.tupleBytes).sum % 2 ^ 64

/-- The chunks of a `TupleArray` from a position on. -/
def chunksFrom : (fuel p : Nat) → List T → List (Nat × List T)
  | 0, _, _ => []
  | _ + 1, _, [] => []
  | fuel + 1, p, t :: l =>
    (p, (t :: l).take cfg.chunkSize) ::
      chunksFrom fuel (p + cfg.chunkSize) ((t :: l).drop cfg.chunkSize)

/-- Sort the buffer, truncate its dimension, for which there have to be coordinates, and
copy it to a `MemArray`. -/
def sortBuffer (buffer : List T) : Except SortFault (MemArray T) :=
  let tuples := cfg.quicksort.iqsort cfg.tupleComp.compare buffer
  if tuples.length = 0 ∨ tuples.length - 1 > getMax then .error .badDimension
  else .ok ⟨cfg.chunksFrom tuples.length 0 tuples⟩

end SortConfig

/-! ## Jobs and states -/

/-- A job: a sort job with its buffer and what it has found out, where `leaving` says that
it is behind its last section but the one that stops it, or a merge job, before and after
it has taken its runs.  A buffer that was reset is empty. -/
inductive Job (T : Type)
  | sort (buffer : List T) (limitReached complete leaving : Bool)
  | merge (mergeStreams : Option (List (MemArray T)))

/-- The `i`-th job is in at most one of the lists of waiting, running and stopped jobs. -/
inductive Slot (T : Type)
  | idle
  | waiting (job : Job T)
  | running (job : Job T)
  | stopped (job : Job T)

/-- Where the main thread is: in front of the loop body, waiting for a job to stop, or
behind the loop. -/
inductive MainPhase
  | top
  | waiting
  | done
deriving DecidableEq

/-- The state the jobs and the main thread share. -/
structure SortState (T : Type) (n : Nat) where
  jobs : Fin n → Slot T
  sortIterators : Fin n → List (List T)
  partitionComplete : Fin n → Bool
  results : List (MemArray T)
  nRunningJobs : Nat
  nStoppedJobs : Nat
  phase : MainPhase

/-- A step of the main thread or of a job. -/
inductive Action (n : Nat)
  | main
  | job (i : Fin n)

/-- A sort job that is to be started. -/
def Job.newSort {T : Type} : Job T :=
  .sort [] false false false

/-- A merge job that is to be started. -/
def Job.newMerge {T : Type} : Job T :=
  .merge none

namespace SortConfig

variable {T : Type} (cfg : SortConfig T)

/-- The state in front of the main loop: `SortIterators` are moved to their first chunk. -/
def init (input : List (List T)) : SortState T cfg.numJobs where
  jobs _ := .waiting .newSort
  sortIterators i := input.drop i
  partitionComplete _ := false
  results := []
  nRunningJobs := 0
  nStoppedJobs := 0
  phase := .top

variable (s : SortState T cfg.numJobs) (i : Fin cfg.numJobs)

/-! ## The steps of the jobs -/

/-- The section at the end of every job. -/
def stop (job : Job T) : SortState T cfg.numJobs :=
  { s with
    jobs := Function.update s.jobs i (.stopped job)
    nStoppedJobs := s.nStoppedJobs + 1
    nRunningJobs := s.nRunningJobs - 1 }

/-- One round of the loop of `SortJob::run`: append a chunk, put the buffer on the list if
it is too large, and move the iterators to the next chunk of the job. -/
def sortRound (buffer chunk : List T) (rest : List (List T)) :
    Except SortFault (SortState T cfg.numJobs) :=
  let buffer := cfg.append buffer chunk
  let s := { s with
    sortIterators := Function.update s.sortIterators i (rest.drop (cfg.numJobs - 1)) }
  if cfg.sizeInBytes buffer > cfg.memLimit then do
    let run ← cfg.sortBuffer buffer
    let results := s.results ++ [run]
    let limitReached := decide (results.length > cfg.pipelineLimit)
    return { s with
      results := results
      jobs := Function.update s.jobs i (.running (.sort [] limitReached false false)) }
  else
    return { s with jobs := Function.update s.jobs i (.running (.sort buffer false false false)) }

/-- `SortJob::run` behind its loop: the rest of the buffer is put on the list if all input
is read. -/
def sortLeave (buffer : List T) (limitReached : Bool) :
    Except SortFault (SortState T cfg.numJobs) :=
  match s.sortIterators i, buffer with
  | [], [] =>
    return { s with jobs := Function.update s.jobs i (.running (.sort [] limitReached true true)) }
  | [], t :: buffer => do
      let run ← cfg.sortBuffer (t :: buffer)
      return { s with
        results := s.results ++ [run]
        jobs := Function.update s.jobs i (.running (.sort [] limitReached true true)) }
  | _ :: _, buffer =>
    return { s with
      jobs := Function.update s.jobs i (.running (.sort buffer limitReached false true)) }

/-- A step of a running job. -/
def jobStep : Except SortFault (SortState T cfg.numJobs) :=
  match s.jobs i with
  | .running (.sort buffer limitReached complete true) =>
    return cfg.stop s i (.sort buffer limitReached complete true)
  | .running (.sort buffer limitReached _ false) =>
    match s.sortIterators i, limitReached with
    | chunk :: rest, false => cfg.sortRound s i buffer chunk rest
    | _, _ => cfg.sortLeave s i buffer limitReached
  | .running (.merge none) =>
    return { s with
      results := s.results.drop cfg.nStreams
      jobs := Function.update s.jobs i (.running (.merge (some (s.results.take cfg.nStreams)))) }
  | .running (.merge (some mergeStreams)) => do
      let materialized ←
        mergeSortArray cfg.tupleComp cfg.quicksort cfg.chunkSize mergeStreams
      let s := { s with results := s.results ++ [materialized] }
      return cfg.stop s i (.merge none)
  | _ => .error .notEnabled

/-! ## The steps of the main thread -/

/-- Start the `i`-th job if it is waiting. -/
def spawn : SortState T cfg.numJobs :=
  match s.jobs i with
  | .waiting job =>
    { s with
      jobs := Function.update s.jobs i (.running job)
      nRunningJobs := s.nRunningJobs + 1 }
  | _ => s

/-- `sJob.get() && sJob->complete()` -/
def isComplete : Job T → Bool
  | .sort _ _ complete _ => complete
  | .merge _ => false

/-- The job that follows a stopped one. -/
def nextJob (complete : Bool) (nResults : Nat) : Slot T :=
  if complete then
    if nResults > cfg.nStreams then .waiting .newMerge else .idle
  else
    if nResults < cfg.pipelineLimit then .waiting .newSort else .waiting .newMerge

/-- Reap the `i`-th job if it has stopped. -/
def reap : SortState T cfg.numJobs :=
  match s.jobs i with
  | .stopped job =>
    let complete := s.partitionComplete i || isComplete job
    { s with
      partitionComplete := Function.update s.partitionComplete i complete
      jobs := Function.update s.jobs i (cfg.nextJob complete s.results.length)
      nStoppedJobs := s.nStoppedJobs - 1 }
  | _ => s

/-- A step of the main thread: start the waiting jobs and leave the loop if there are no
others, or reap the stopped ones.  The main thread may find no job stopped when it wakes
up. -/
def mainStep : Except SortFault (SortState T cfg.numJobs) :=
  match s.phase with
  | .top =>
    let s := (List.finRange cfg.numJobs).foldl cfg.spawn s
    if s.nRunningJobs = 0 ∧ s.nStoppedJobs = 0 then return { s with phase := .done }
    else return { s with phase := .waiting }
  | .waiting =>
    let s := (List.finRange cfg.numJobs).foldl cfg.reap s
    return { s with phase := .top }
  | .done => .error .notEnabled

def step (a : Action cfg.numJobs) : Except SortFault (SortState T cfg.numJobs) :=
  match a with
  | .main => cfg.mainStep s
  | .job i => cfg.jobStep s i

/-- The last merge, behind the main loop, and the result: the front of the list. -/
def lastMerge (results : List (MemArray T)) : Except SortFault (MemArray T) := do
  let results ←
    if results.length > 1 then do
      let materialized ← mergeSortArray cfg.tupleComp cfg.quicksort cfg.chunkSize
        (results.take cfg.nStreams)
      pure (results.drop cfg.nStreams ++ [materialized])
    else pure results
  match results with
  | [] => return ⟨[]⟩
  | r :: _ => return r

/-- `getSortedArray` with an interleaving of the steps of its jobs and the main thread. -/
def getSortedArray (input : List (List T)) (schedule : List (Action cfg.numJobs)) :
    Except SortFault (MemArray T) := do
  let s ← runM cfg.step (cfg.init input) schedule
  match s.phase with
  | .done => cfg.lastMerge s.results
  | _ => .error .notEnabled

end SortConfig

/-! ## Sorting a buffer -/

namespace SortConfig

variable {T : Type} {cfg : SortConfig T}

theorem chunksFrom_spec (cfg : SortConfig T) {fuel : Nat} (p : Nat) {l : List T}
    (hfuel : l.length ≤ fuel) :
    Consecutive p (cfg.chunksFrom fuel p l) ∧ (cfg.chunksFrom fuel p l).flatMap Prod.snd = l := by
  have hsize := cfg.chunkSize_pos
  induction fuel generalizing p l with
  | zero =>
    cases length_eq_zero_iff.mp (Nat.le_zero.mp hfuel)
    exact ⟨trivial, rfl⟩
  | succ fuel ih =>
    cases l with
    | nil => exact ⟨trivial, rfl⟩
    | cons t l =>
      have hdrop : ((t :: l).drop cfg.chunkSize).length ≤ fuel := by
        rw [length_drop]
        omega
      rw [chunksFrom]
      constructor
      · refine ⟨rfl, ?_⟩
        by_cases hlast : (t :: l).length ≤ cfg.chunkSize
        · rw [drop_eq_nil_iff.mpr hlast]
          cases fuel <;> exact trivial
        · rw [length_take_of_le (by omega)]
          exact (ih _ hdrop).1
      · rw [flatMap_cons, (ih _ hdrop).2, take_append_drop]

/-- A buffer becomes a sorted run of its tuples. -/
theorem sortBuffer_spec {buffer : List T} {r : MemArray T} (h : cfg.sortBuffer buffer = .ok r) :
    IsRun cfg.tupleComp r ∧ r.tuples.Perm buffer := by
  have hperm := cfg.quicksort.perm cfg.tupleComp.isTotalPreorder buffer
  rw [sortBuffer] at h
  split at h
  · cases h
  · cases Except.ok.inj h
    have hchunks := chunksFrom_spec cfg 0
      (le_refl (cfg.quicksort.iqsort cfg.tupleComp.compare buffer).length)
    refine ⟨⟨hchunks.1, ?_, ?_⟩, ?_⟩
    · rw [MemArray.tuples, hchunks.2]
      exact cfg.quicksort.sorted cfg.tupleComp.isTotalPreorder buffer
    · rw [MemArray.tuples, hchunks.2]
      omega
    · rw [MemArray.tuples, hchunks.2]
      exact hperm

/-! ## The invariant -/

/-- The tuples that are to be sorted. -/
def wanted (cfg : SortConfig T) (chunks : List (List T)) : List T :=
  chunks.flatMap fun chunk => chunk.filter fun t => !cfg.skipper t

/-- The tuples a job has taken and not put back. -/
def held : Job T → Multiset T
  | .sort buffer _ _ _ => (buffer : Multiset T)
  | .merge none => 0
  | .merge (some mergeStreams) => (mergeStreams.flatMap MemArray.tuples : List T)

end SortConfig

namespace Slot

variable {T : Type}

/-- The tuples of the job in a slot. -/
def held : Slot T → Multiset T
  | .idle => 0
  | .waiting job => SortConfig.held job
  | .running job => SortConfig.held job
  | .stopped job => SortConfig.held job

/-- One for a running job. -/
def countRunning : Slot T → Nat
  | .running _ => 1
  | _ => 0

/-- One for a stopped job. -/
def countStopped : Slot T → Nat
  | .stopped _ => 1
  | _ => 0

end Slot

namespace SortConfig

variable {T : Type} {cfg : SortConfig T} {input : List (List T)}
  {s s' : SortState T cfg.numJobs} {i : Fin cfg.numJobs}

/-- A sort job has put its buffer on the list when it leaves its loop, and it is complete
when its input is read.  A merge job holds sorted runs. -/
def JobOk (cfg : SortConfig T) : Job T → List (List T) → Prop
  | .sort buffer limitReached complete leaving, iterators =>
    (limitReached = true ∨ leaving = true → buffer = []) ∧ (complete = true → iterators = [])
  | .merge mergeStreams, _ => ∀ r ∈ mergeStreams.getD [], IsRun cfg.tupleComp r

/-- A slot is given up only when its part of the input is read, and a stopped job holds
nothing. -/
def SlotOk (cfg : SortConfig T) (slot : Slot T) (iterators : List (List T))
    (complete : Bool) : Prop :=
  (complete = true → iterators = []) ∧
    match slot with
    | .idle => complete = true
    | .waiting job => cfg.JobOk job iterators
    | .running job => cfg.JobOk job iterators
    | .stopped job => cfg.JobOk job iterators ∧ held job = 0

/-- The tuples a slot is responsible for: those its job holds, and those of the chunks it
has not read. -/
def load (cfg : SortConfig T) (s : SortState T cfg.numJobs) (i : Fin cfg.numJobs) : Multiset T :=
  (s.jobs i).held + cfg.wanted (stride cfg.numJobs (s.sortIterators i))

/-- The tuples of the runs on the list. -/
def listed (s : SortState T cfg.numJobs) : Multiset T :=
  (s.results.flatMap MemArray.tuples : List T)

/-- No tuple is lost, the runs are sorted, and the last job to be given up leaves few
runs. -/
structure Inv (cfg : SortConfig T) (input : List (List T)) (s : SortState T cfg.numJobs) :
    Prop where
  runs : ∀ r ∈ s.results, IsRun cfg.tupleComp r
  total : listed s + ∑ i, cfg.load s i = cfg.wanted input
  running : s.nRunningJobs = ∑ i, (s.jobs i).countRunning
  stopped : s.nStoppedJobs = ∑ i, (s.jobs i).countStopped
  slot : ∀ i, cfg.SlotOk (s.jobs i) (s.sortIterators i) (s.partitionComplete i)
  few : (∃ i, s.jobs i ≠ .idle) ∨ s.results.length ≤ cfg.nStreams
  done : s.phase = .done → ∀ i, s.jobs i = .idle

/-- Two sums that differ in one summand. -/
theorem sum_change {M : Type} [AddCommMonoid M] {n : Nat} {f g : Fin n → M} (i : Fin n)
    (h : ∀ j, j ≠ i → f j = g j) : ∑ j, f j + g i = ∑ j, g j + f i := by
  rw [← Finset.add_sum_erase Finset.univ f (Finset.mem_univ i),
    ← Finset.add_sum_erase Finset.univ g (Finset.mem_univ i),
    Finset.sum_congr rfl fun j hj => h j (Finset.ne_of_mem_erase hj)]
  rw [add_right_comm, add_comm (f i), add_right_comm]

variable {job : Job T} {r : MemArray T} {iterators : List (List T)} {results : List (MemArray T)}
  {buffer : List T} {complete : Bool} {old slot : Slot T}

/-- A step that changes one slot, whose job is not given up yet, and the list. -/
theorem Inv.change (h : Inv cfg input s) (hi : s.jobs i = old) (hold : old ≠ .idle)
    (hjobs : s'.jobs = Function.update s.jobs i slot)
    (hiter : s'.sortIterators = Function.update s.sortIterators i iterators)
    (hcomplete : s'.partitionComplete = Function.update s.partitionComplete i complete)
    (hruns : ∀ r ∈ s'.results, IsRun cfg.tupleComp r)
    (htotal : listed s' + (slot.held + cfg.wanted (stride cfg.numJobs iterators)) =
      listed s + (old.held + cfg.wanted (stride cfg.numJobs (s.sortIterators i))))
    (hrunning : s'.nRunningJobs + old.countRunning = s.nRunningJobs + slot.countRunning)
    (hstopped : s'.nStoppedJobs + old.countStopped = s.nStoppedJobs + slot.countStopped)
    (hslot : cfg.SlotOk slot iterators complete)
    (hfew : slot ≠ .idle ∨ s'.results.length ≤ cfg.nStreams)
    (hphase : s'.phase = s.phase) : Inv cfg input s' := by
  subst hi
  have hself : s'.jobs i = slot := by rw [hjobs, update_self]
  have hload : cfg.load s' i = slot.held + cfg.wanted (stride cfg.numJobs iterators) := by
    rw [load, hself, hiter, update_self]
  have hsame : ∀ j, j ≠ i → s'.jobs j = s.jobs j ∧ s'.sortIterators j = s.sortIterators j := by
    intro j hj
    rw [hjobs, hiter, update_of_ne hj, update_of_ne hj]
    exact ⟨rfl, rfl⟩
  have hcount : ∀ f : Slot T → Nat, ∑ j, f (s'.jobs j) + f (s.jobs i) =
      ∑ j, f (s.jobs j) + f slot := by
    intro f
    have hsum := sum_change (f := fun j => f (s'.jobs j)) i fun j hj => by rw [(hsame j hj).1]
    rw [hsum, hself]
  constructor
  · exact hruns
  · have hsum := sum_change (f := cfg.load s') (g := cfg.load s) i fun j hj => by
      rw [load, load, (hsame j hj).1, (hsame j hj).2]
    have hcancel : listed s' + ∑ j, cfg.load s' j + cfg.load s i =
        listed s + ∑ j, cfg.load s j + cfg.load s i :=
      calc listed s' + ∑ j, cfg.load s' j + cfg.load s i
          = listed s' + cfg.load s' i + ∑ j, cfg.load s j := by
            rw [add_assoc, hsum]
            ac_rfl
        _ = listed s + ∑ j, cfg.load s j + cfg.load s i := by
            rw [hload, htotal, load]
            ac_rfl
    exact (add_right_cancel hcancel).trans h.total
  · have := hcount Slot.countRunning
    have := h.running
    omega
  · have := hcount Slot.countStopped
    have := h.stopped
    omega
  · intro j
    rw [hjobs, hiter, hcomplete]
    by_cases hj : j = i
    · rw [hj, update_self, update_self, update_self]
      exact hslot
    · rw [update_of_ne hj, update_of_ne hj, update_of_ne hj]
      exact h.slot j
  · exact hfew.imp (fun hne => ⟨i, hself ▸ hne⟩) id
  · exact fun hdone => (hold (h.done (hphase ▸ hdone) i)).elim

theorem Inv.running_pos (h : Inv cfg input s) (hi : s.jobs i = .running job) :
    0 < s.nRunningJobs := by
  have hle := Finset.single_le_sum (f := fun j => (s.jobs j).countRunning)
    (fun j _ => Nat.zero_le _) (Finset.mem_univ i)
  rw [← h.running, hi] at hle
  exact hle

theorem Inv.stopped_pos (h : Inv cfg input s) (hi : s.jobs i = .stopped job) :
    0 < s.nStoppedJobs := by
  have hle := Finset.single_le_sum (f := fun j => (s.jobs j).countStopped)
    (fun j _ => Nat.zero_le _) (Finset.mem_univ i)
  rw [← h.stopped, hi] at hle
  exact hle

/-! ## The steps of the jobs keep the invariant -/

theorem wanted_cons (chunk : List T) (chunks : List (List T)) :
    cfg.wanted (chunk :: chunks) = (chunk.filter fun t => !cfg.skipper t) ++ cfg.wanted chunks :=
  flatMap_cons

section

variable (h : Inv cfg input s)

include h

/-- A running job that holds nothing stops. -/
theorem stop_inv (hi : s.jobs i = .running job) (hok : cfg.JobOk job (s.sortIterators i))
    (hheld : held job = 0) :
    Inv cfg input (cfg.stop s i job) := by
  exact h.change hi nofun rfl (update_eq_self ..).symm (update_eq_self ..).symm h.runs rfl
    (Nat.sub_add_cancel (h.running_pos hi)) rfl ⟨(h.slot i).1, hok, hheld⟩ (.inl nofun) rfl

omit h in
/-- A buffer that was sorted is put on the list. -/
theorem listed_concat (hperm : r.tuples.Perm buffer) :
    (((s.results ++ [r]).flatMap MemArray.tuples : List T) : Multiset T) = listed s + buffer := by
  rw [flatMap_append, flatMap_singleton, ← Multiset.coe_add, Multiset.coe_eq_coe.mpr hperm, listed]

theorem sortRound_inv {chunk : List T} {rest : List (List T)}
    (hi : s.jobs i = .running (.sort buffer false complete false))
    (hiter : s.sortIterators i = chunk :: rest)
    (hstep : cfg.sortRound s i buffer chunk rest = .ok s') : Inv cfg input s' := by
  have hcomplete : s.partitionComplete i = true → rest.drop (cfg.numJobs - 1) = [] := by
    intro hc
    have := (h.slot i).1 hc
    rw [hiter] at this
    cases this
  have hload : (buffer : Multiset T) + cfg.wanted (stride cfg.numJobs (s.sortIterators i)) =
      (cfg.append buffer chunk : List T) +
        (cfg.wanted (stride cfg.numJobs (rest.drop (cfg.numJobs - 1))) : Multiset T) := by
    rw [hiter, stride_cons, wanted_cons, append, ← Multiset.coe_add, ← Multiset.coe_add, add_assoc]
  rw [sortRound] at hstep
  split at hstep
  · rcases bind_eq_ok.mp hstep with ⟨run, hrun, hstep⟩
    cases Except.ok.inj hstep
    rcases sortBuffer_spec hrun with ⟨hsorted, hperm⟩
    refine h.change hi nofun rfl rfl (update_eq_self ..).symm (forall_mem_concat h.runs hsorted) ?_
      rfl rfl ⟨hcomplete, fun _ => rfl, nofun⟩ (.inl nofun) rfl
    change _ + (0 + _) = listed s + ((buffer : Multiset T) + _)
    rw [hload, zero_add, ← add_assoc]
    exact congrArg (· + _) (listed_concat hperm)
  · cases Except.ok.inj hstep
    exact h.change hi nofun rfl rfl (update_eq_self ..).symm h.runs
      (congrArg (listed s + ·) hload.symm) rfl rfl ⟨hcomplete, nofun, nofun⟩ (.inl nofun) rfl

theorem sortLeave_inv {limitReached : Bool}
    (hi : s.jobs i = .running (.sort buffer limitReached complete false))
    (hend : s.sortIterators i = [] ∨ limitReached = true)
    (hstep : cfg.sortLeave s i buffer limitReached = .ok s') : Inv cfg input s' := by
  have hslot := h.slot i
  rw [hi] at hslot
  unfold sortLeave at hstep
  split at hstep
  · rename_i hiter
    cases Except.ok.inj hstep
    exact h.change hi nofun rfl (update_eq_self ..).symm (update_eq_self ..).symm h.runs rfl rfl rfl
      ⟨hslot.1, fun _ => rfl, fun _ => hiter⟩ (.inl nofun) rfl
  · rename_i t buffer hiter
    rcases bind_eq_ok.mp hstep with ⟨run, hrun, hstep⟩
    cases Except.ok.inj hstep
    rcases sortBuffer_spec hrun with ⟨hsorted, hperm⟩
    refine h.change hi nofun rfl (update_eq_self ..).symm (update_eq_self ..).symm
      (forall_mem_concat h.runs hsorted) ?_ rfl rfl ⟨hslot.1, fun _ => rfl, fun _ => hiter⟩
      (.inl nofun) rfl
    change _ + (0 + _) = listed s + (((t :: buffer : List T) : Multiset T) + _)
    rw [zero_add, ← add_assoc]
    exact congrArg (· + _) (listed_concat hperm)
  · rename_i buffer _ _ chunk rest hiter
    cases Except.ok.inj hstep
    have hlimit : limitReached = true := by
      rcases hend with hend | hend
      · rw [hiter] at hend
        cases hend
      · exact hend
    exact h.change hi nofun rfl (update_eq_self ..).symm (update_eq_self ..).symm h.runs rfl rfl rfl
      ⟨hslot.1, fun _ => hslot.2.1 (.inl hlimit), nofun⟩ (.inl nofun) rfl

theorem mergeTake_inv (hi : s.jobs i = .running (.merge none)) : Inv cfg input { s with
      results := s.results.drop cfg.nStreams
      jobs := Function.update s.jobs i
        (.running (.merge (some (s.results.take cfg.nStreams)))) } := by
  refine h.change hi nofun rfl (update_eq_self ..).symm (update_eq_self ..).symm
    (fun r hr => h.runs r (mem_of_mem_drop hr)) ?_ rfl rfl
    ⟨(h.slot i).1, fun r hr => h.runs r (mem_of_mem_take hr)⟩ (.inl nofun) rfl
  simp only [listed, held, Slot.held, zero_add]
  rw [← add_assoc, Multiset.coe_add, add_left_inj, Multiset.coe_eq_coe]
  refine perm_append_comm.trans ?_
  rw [← flatMap_append, take_append_drop]

/-- Runs that were merged go back to the list. -/
theorem mergePut_inv {mergeStreams : List (MemArray T)}
    (hi : s.jobs i = .running (.merge (some mergeStreams)))
    (hr : mergeSortArray cfg.tupleComp cfg.quicksort cfg.chunkSize mergeStreams = .ok r) :
    Inv cfg input (cfg.stop { s with results := s.results ++ [r] } i (.merge none)) := by
  have hslot := h.slot i
  rw [hi] at hslot
  have hmerged : IsRun cfg.tupleComp r ∧ r.tuples.Perm (mergeStreams.flatMap MemArray.tuples) := by
    have hruns : ∀ r ∈ mergeStreams, IsRun cfg.tupleComp r := hslot.2
    rcases mergeSortArray_spec cfg.quicksort cfg.chunkSize_pos hruns with herror | ⟨r', hr', hspec⟩
    · rw [hr] at herror
      cases herror
    · cases hr.symm.trans hr'
      exact hspec
  refine h.change hi nofun rfl (update_eq_self ..).symm (update_eq_self ..).symm
    (forall_mem_concat h.runs hmerged.1) ?_ (Nat.sub_add_cancel (h.running_pos hi)) rfl
    ⟨hslot.1, nofun, rfl⟩ (.inl nofun) rfl
  change _ + (0 + _) = listed s + (((mergeStreams.flatMap MemArray.tuples : List T) :
    Multiset T) + _)
  rw [zero_add, ← add_assoc]
  exact congrArg (· + _) (listed_concat hmerged.2)

theorem jobStep_inv (hstep : cfg.jobStep s i = .ok s') : Inv cfg input s' := by
  have hslot := h.slot i
  rw [jobStep] at hstep
  split at hstep
  · rename_i buffer limitReached complete hi
    cases Except.ok.inj hstep
    rw [hi] at hslot
    refine stop_inv h hi hslot.2 ?_
    rw [hslot.2.1 (.inr rfl)]
    rfl
  · rename_i buffer limitReached complete hi
    split at hstep
    · rename_i chunk rest hiter
      exact sortRound_inv h hi hiter hstep
    · rename_i hnot
      refine sortLeave_inv h hi ?_ hstep
      by_contra hcon
      rw [not_or] at hcon
      obtain ⟨chunk, rest, hiter⟩ := exists_cons_of_ne_nil hcon.1
      exact hnot chunk rest hiter (Bool.eq_false_iff.mpr hcon.2)
  · rename_i hi
    cases Except.ok.inj hstep
    exact mergeTake_inv h hi
  · rename_i mergeStreams hi
    rcases bind_eq_ok.mp hstep with ⟨r, hr, hstep⟩
    cases Except.ok.inj hstep
    exact mergePut_inv h hi hr
  · cases hstep

/-! ## The steps of the main thread keep the invariant -/

theorem spawn_inv (i : Fin cfg.numJobs) : Inv cfg input (cfg.spawn s i) := by
  unfold spawn
  split
  · rename_i job hi
    have hslot := h.slot i
    rw [hi] at hslot
    exact h.change hi nofun rfl (update_eq_self ..).symm (update_eq_self ..).symm h.runs rfl rfl rfl
      hslot (.inl nofun) rfl
  · exact h

end

/-- The slot of a job that follows a stopped one. -/
theorem nextJob_spec (cfg : SortConfig T) (complete : Bool) (nResults : Nat)
    (h : complete = true → iterators = []) :
    (cfg.nextJob complete nResults).held = 0 ∧ (cfg.nextJob complete nResults).countRunning = 0 ∧
      (cfg.nextJob complete nResults).countStopped = 0 ∧
      cfg.SlotOk (cfg.nextJob complete nResults) iterators complete ∧
      (cfg.nextJob complete nResults ≠ .idle ∨ nResults ≤ cfg.nStreams) := by
  have hmerge : cfg.JobOk .newMerge iterators := by
    intro r hr
    cases hr
  have hsort : cfg.JobOk .newSort iterators := ⟨fun _ => rfl, nofun⟩
  rw [nextJob]
  cases complete with
  | true =>
    simp only [if_true]
    split
    · exact ⟨rfl, rfl, rfl, ⟨h, hmerge⟩, .inl nofun⟩
    · rename_i hfew
      exact ⟨rfl, rfl, rfl, ⟨h, rfl⟩, .inr (not_lt.mp hfew)⟩
  | false =>
    simp only [Bool.false_eq_true, if_false]
    split
    · exact ⟨rfl, rfl, rfl, ⟨h, hsort⟩, .inl nofun⟩
    · exact ⟨rfl, rfl, rfl, ⟨h, hmerge⟩, .inl nofun⟩

theorem reap_inv (h : Inv cfg input s) (i : Fin cfg.numJobs) : Inv cfg input (cfg.reap s i) := by
  unfold reap
  split
  · rename_i job hi
    have hslot := h.slot i
    rw [hi] at hslot
    have hcomplete : (s.partitionComplete i || isComplete job) = true → s.sortIterators i = [] := by
      intro hc
      rcases Bool.or_eq_true_iff.mp hc with hc | hc
      · exact hslot.1 hc
      · cases job with
        | sort buffer limitReached complete leaving => exact hslot.2.1.2 hc
        | merge mergeStreams => cases hc
    rcases nextJob_spec cfg _ s.results.length hcomplete with
      ⟨hheld, hrunning, hstopped, hok, hfew⟩
    refine h.change hi nofun rfl (update_eq_self ..).symm rfl h.runs ?_ ?_ ?_ hok hfew rfl
    · rw [hheld, Slot.held, hslot.2.2]
      rfl
    · rw [hrunning]
      rfl
    · rw [hstopped]
      exact Nat.sub_add_cancel (h.stopped_pos hi)
  · exact h

theorem foldl_inv {f : SortState T cfg.numJobs → Fin cfg.numJobs → SortState T cfg.numJobs}
    (hf : ∀ {s}, Inv cfg input s → ∀ i, Inv cfg input (f s i)) (l : List (Fin cfg.numJobs))
    (h : Inv cfg input s) : Inv cfg input (l.foldl f s) := by
  induction l generalizing s with
  | nil => exact h
  | cons i l ih => exact ih (hf h i)

/-- A job that still waits behind the loop that starts the jobs was not its turn. -/
theorem waiting_of_foldl_spawn {l : List (Fin cfg.numJobs)}
    (h : (l.foldl cfg.spawn s).jobs i = .waiting job) : s.jobs i = .waiting job ∧ i ∉ l := by
  induction l generalizing s with
  | nil => exact ⟨h, not_mem_nil⟩
  | cons j l ih =>
    rcases ih h with ⟨hi, hl⟩
    unfold spawn at hi
    split at hi
    · by_cases hij : i = j
      · subst hij
        simp only [update_self] at hi
        cases hi
      · simp only [update_of_ne hij] at hi
        exact ⟨hi, not_mem_cons_of_ne_of_not_mem hij hl⟩
    · rename_i hnot
      refine ⟨hi, not_mem_cons_of_ne_of_not_mem ?_ hl⟩
      rintro rfl
      exact hnot job hi

theorem Inv.setPhase (h : Inv cfg input s) {phase : MainPhase}
    (hdone : phase = .done → ∀ i, s.jobs i = .idle) : Inv cfg input { s with phase := phase } :=
  { h with done := hdone }

theorem mainStep_inv (h : Inv cfg input s) (hstep : cfg.mainStep s = .ok s') :
    Inv cfg input s' := by
  unfold mainStep at hstep
  split at hstep
  · have hspawn := foldl_inv spawn_inv (List.finRange cfg.numJobs) h
    dsimp only at hstep
    split at hstep
    · rename_i hnone
      cases Except.ok.inj hstep
      refine hspawn.setPhase fun _ i => ?_
      -- no job is left: none runs or has stopped, and all that waited were started
      have hrunning := hspawn.running.symm.trans hnone.1
      have hstopped := hspawn.stopped.symm.trans hnone.2
      rw [Finset.sum_eq_zero_iff] at hrunning hstopped
      have hri := hrunning i (Finset.mem_univ i)
      have hsi := hstopped i (Finset.mem_univ i)
      cases hi : ((List.finRange cfg.numJobs).foldl cfg.spawn s).jobs i with
      | idle => rfl
      | waiting job => exact absurd (mem_finRange i) (waiting_of_foldl_spawn hi).2
      | running job =>
        rw [hi] at hri
        cases hri
      | stopped job =>
        rw [hi] at hsi
        cases hsi
    · cases Except.ok.inj hstep
      exact hspawn.setPhase nofun
  · cases Except.ok.inj hstep
    exact (foldl_inv reap_inv _ h).setPhase nofun
  · cases hstep

/-- No step loses or adds a tuple. -/
theorem step_inv (s : SortState T cfg.numJobs) (a : Action cfg.numJobs)
    (s' : SortState T cfg.numJobs) (h : Inv cfg input s) (hstep : cfg.step s a = .ok s') :
    Inv cfg input s' := by
  cases a with
  | main => exact mainStep_inv h hstep
  | job i => exact jobStep_inv h hstep

/-! ## The sort is right -/

theorem coe_flatMap {α β : Type} (l : List α) (g : α → List β) :
    ((l.flatMap g : List β) : Multiset β) = (l.map fun x => (g x : Multiset β)).sum := by
  induction l with
  | nil => rfl
  | cons x l ih => rw [flatMap_cons, ← Multiset.coe_add, ih, map_cons, sum_cons]

/-- The jobs share out the chunks of the input. -/
theorem sum_wanted (cfg : SortConfig T) (input : List (List T)) (hn : 0 < cfg.numJobs) :
    ∑ i : Fin cfg.numJobs, (cfg.wanted (stride cfg.numJobs (input.drop i)) : Multiset T) =
      cfg.wanted input := by
  have hperm := (strides_perm hn input).flatMap_right fun chunk =>
    chunk.filter fun t => !cfg.skipper t
  rw [flatMap_assoc] at hperm
  rw [wanted, ← Multiset.coe_eq_coe.mpr hperm, coe_flatMap, ← map_coe_finRange_eq_range, map_map]
  rfl

theorem init_inv (h : 0 < cfg.numJobs ∨ cfg.wanted input = []) :
    Inv cfg input (cfg.init input) where
  runs := nofun
  total := by
    change 0 + ∑ i : Fin cfg.numJobs, cfg.load (cfg.init input) i = _
    rw [zero_add]
    rcases Nat.eq_zero_or_pos cfg.numJobs with hn | hn
    · have : IsEmpty (Fin cfg.numJobs) := by
        rw [hn]
        infer_instance
      rw [Finset.univ_eq_empty, h.resolve_left (by omega)]
      rfl
    · exact cfg.sum_wanted input hn
  running := by
    change 0 = ∑ i : Fin cfg.numJobs, 0
    rw [Finset.sum_const_zero]
  stopped := by
    change 0 = ∑ i : Fin cfg.numJobs, 0
    rw [Finset.sum_const_zero]
  slot i := ⟨nofun, fun _ => rfl, nofun⟩
  few := .inr (Nat.zero_le _)
  done := nofun

/-- Behind the main loop all tuples are in the runs on the list. -/
theorem Inv.listed_eq (h : Inv cfg input s) (hdone : s.phase = .done) :
    listed s = cfg.wanted input := by
  have hload : ∀ i, cfg.load s i = 0 := by
    intro i
    have hslot := h.slot i
    rw [h.done hdone] at hslot
    rw [load, h.done hdone, hslot.1 hslot.2, stride_nil]
    rfl
  have htotal := h.total
  rwa [Finset.sum_eq_zero fun i _ => hload i, add_zero] at htotal

/-- Behind the main loop few runs are left. -/
theorem Inv.length_le (h : Inv cfg input s) (hdone : s.phase = .done) :
    s.results.length ≤ cfg.nStreams := by
  rcases h.few with ⟨i, hi⟩ | hfew
  · exact (hi (h.done hdone i)).elim
  · exact hfew

/-- The result holds the tuples that are not skipped, each once, at the positions from zero
on and in order. -/
def Sorts (cfg : SortConfig T) (input : List (List T)) (r : MemArray T) : Prop :=
  ∃ l, r.cells = l.zipIdx ∧ l.Perm (cfg.wanted input) ∧ Ordered cfg.tupleComp l

/-- The last merge takes all runs. -/
theorem lastMerge_spec (hruns : ∀ r ∈ results, IsRun cfg.tupleComp r)
    (hlen : results.length ≤ cfg.nStreams) (h : cfg.lastMerge results = .ok r) :
    IsRun cfg.tupleComp r ∧ r.tuples.Perm (results.flatMap MemArray.tuples) := by
  rw [lastMerge, take_of_length_le hlen, drop_of_length_le hlen] at h
  by_cases hone : results.length > 1
  · rw [if_pos hone] at h
    rcases mergeSortArray_spec cfg.quicksort cfg.chunkSize_pos hruns with herror | ⟨r', hr', hspec⟩
    · rw [herror] at h
      cases h
    · rw [hr'] at h
      cases Except.ok.inj h
      exact hspec
  · cases results with
    | nil =>
      cases Except.ok.inj h
      exact ⟨⟨trivial, .nil, Nat.zero_le _⟩, .refl _⟩
    | cons r' results =>
      have hnil : results = [] := by
        rw [length_cons] at hone
        exact length_eq_zero_iff.mp (by omega)
      subst hnil
      cases Except.ok.inj h
      refine ⟨hruns r mem_cons_self, ?_⟩
      rw [flatMap_singleton]

/-- Without jobs nothing is sorted. -/
theorem getSortedArray_no_jobs (hn : cfg.numJobs = 0) (input : List (List T)) :
    cfg.getSortedArray input [.main] = .ok ⟨[]⟩ := by
  have hnil : List.finRange cfg.numJobs = [] := by
    rw [← length_eq_zero_iff, length_finRange, hn]
  rw [getSortedArray, runM, step, mainStep]
  simp only [hnil]
  rfl

/-- In every interleaving that comes to an end the result is the sorted input without the
skipped tuples, and the last merge takes every run, exactly if there is a job at all or
nothing to sort. -/
theorem sorts_iff (cfg : SortConfig T) (input : List (List T)) :
    (∀ schedule,
      (∀ s, runM cfg.step (cfg.init input) schedule = .ok s → s.phase = .done →
        s.results.length ≤ cfg.nStreams) ∧
      ∀ r, cfg.getSortedArray input schedule = .ok r → cfg.Sorts input r) ↔
      0 < cfg.numJobs ∨ cfg.wanted input = [] := by
  constructor
  · intro h
    rcases Nat.eq_zero_or_pos cfg.numJobs with hn | hn
    · right
      rcases (h [.main]).2 _ (getSortedArray_no_jobs hn input) with ⟨l, hcells, hperm, _⟩
      have hl : l = [] := by
        have := congrArg List.length hcells
        rw [length_zipIdx] at this
        exact length_eq_zero_iff.mp this.symm
      rw [hl] at hperm
      exact hperm.nil_eq.symm
    · exact .inl hn
  · intro h schedule
    have hinv : ∀ {s}, runM cfg.step (cfg.init input) schedule = .ok s → Inv cfg input s :=
      fun hrun => runM_preserves step_inv (init_inv h) hrun
    refine ⟨fun s hrun hdone => (hinv hrun).length_le hdone, fun r hr => ?_⟩
    rw [getSortedArray] at hr
    rcases bind_eq_ok.mp hr with ⟨s, hrun, hr⟩
    split at hr
    · rename_i hphase
      rcases lastMerge_spec (hinv hrun).runs ((hinv hrun).length_le hphase) hr with
        ⟨hsorted, hperm⟩
      refine ⟨r.tuples, flatMap_zipIdx hsorted.consecutive, hperm.trans ?_, hsorted.ordered⟩
      exact Multiset.coe_eq_coe.mp ((hinv hrun).listed_eq hphase)
    · cases hr

/-- A sort of numbers with a given number of jobs, two streams and runs of one chunk. -/
def sample (numJobs : Nat) : SortConfig Int where
  quicksort := insertionSort
  tupleComp := ⟨fun a b => a - b, ⟨fun a b => by omega, by omega⟩⟩
  skipper t := decide (t = 9)
  tupleBytes _ := 8
  chunkSize := 2
  numJobs := numJobs
  memLimit := 0
  mergeSortNStreams := 2
  mergeSortPipelineLimit := 2
  chunkSize_pos := by decide

/-- With no job, which the configuration allows, the sort returns an empty array. -/
theorem sort_loses_tuples :
    (sample 0).getSortedArray [[3, 1]] [.main] = .ok ⟨[]⟩ ∧ ¬ (sample 0).Sorts [[3, 1]] ⟨[]⟩ := by
  refine ⟨getSortedArray_no_jobs rfl _, ?_⟩
  rintro ⟨l, hcells, hperm, _⟩
  have hl : 0 = l.length := (congrArg List.length hcells).trans length_zipIdx
  have hwanted : l.length = 2 := hperm.length_eq
  omega

example : (sample 2).getSortedArray [[3, 1], [9, 2]]
    (.main :: [0, 1, 0, 1, 1, 0].map (fun i : Fin 2 => .job i) ++ [.main, .main]) =
      .ok ⟨[(0, [1, 2]), (2, [3])]⟩ := by
  rfl

end SortConfig

end SciDB.Sorting
