import Mathlib
import SciDB.Lib.OrderedMap
import SciDB.Lib.Runs
import SciDB.Network.OrderedBcast
import SciDB.Network.OrderedBcastLocal
import SciDB.Network.OrderedBcastEntering

/-!
# Ordered broadcast is a total order

What one member has heard from another one, followed by what is still under way on
the channel between them, is what that one has sent, and it has increasing
timestamps.  So a member that knows a clock has heard every request with a smaller
timestamp, and what it has released is an initial segment of all requests stamped
in the view.  Two initial segments are prefixes of one another.

Main results:

- Theorem {lit}`Invariant.step`: every event keeps the invariant.
- Theorem {lit}`Invariant.initial`: what is released is an initial segment.
- Theorem {lit}`ordered_broadcast_total_order`: every run is totally ordered.
-/

namespace SciDB.Network.OrderedBcast

open OrderedMap Cluster List Function

variable {ι α : Type*} [LinearOrder ι] {view : VersionVector ι} {m : Manager ι α}
  {e : Stamped ι α}

/-! ## The cluster -/

/-- What an instance has heard from another one and what is still under way is
what that one has sent. -/
structure Invariant (view : VersionVector ι) (heard : ι → ι → List (Stamped ι α))
    (s : Cluster ι α) : Prop where
  self : ∀ i, Member view i → (s.managers i).selfInstanceId = i
  instances : ∀ i, Member view i → Local view (heard i) (s.managers i)
  wires : ∀ i j, ∀ e ∈ s.channels i j, i ≠ j ∧ e.1.instanceId = i ∧ Member e.2.versionVector i
  flow : ∀ i j, Member view i → Member view j → i ≠ j →
    heard j i ++ arrivals view i (s.channels i j) = (s.managers i).sent

/-- What a member has sent: messages of the view with increasing timestamps. -/
theorem Local.sent_spec {heard : ι → List (Stamped ι α)} (h : Local view heard m) :
    (∀ e ∈ m.sent, e.1.instanceId = m.selfInstanceId ∧ e.2.versionVector = view) ∧
      m.sent.Pairwise (fun a b => a.1.timestamp < b.1.timestamp) := by
  rcases h.phase with hw | ⟨hin, -⟩
  · rw [hw.sent]
    exact ⟨fun e he => absurd he not_mem_nil, List.Pairwise.nil⟩
  · exact ⟨fun e he => ⟨(hin.outgoing.sent_from e he).1, (hin.outgoing.sent_from e he).2.1⟩,
      hin.outgoing.increasing⟩

variable {c : Cluster ι α} {heard : ι → ι → List (Stamped ι α)} {i j destination source : ι}
  {rest : List (Stamped ι α)} {a : Stamped ι α}

/-- What a member has heard from another one has increasing timestamps. -/
theorem Invariant.heard_increasing (h : Invariant view heard c) (hi : Member view i)
    (hj : Member view j) (hij : i ≠ j) :
    (heard j i ++ arrivals view i (c.channels i j)).Pairwise
      (fun a b => a.1.timestamp < b.1.timestamp) := by
  rw [h.flow i j hi hj hij]
  exact (h.instances i hi).sent_spec.2

/-- A manager takes a step: what it has newly sent is now under way to every other
member. -/
theorem Invariant.update {m' : Manager ι α}
    (hself : ∀ j, Member view j → (c.managers j).selfInstanceId = j)
    (hothers : ∀ j, Member view j → j ≠ i → Local view (heard j) (c.managers j))
    (hwires : ∀ j k, ∀ e ∈ c.channels j k, j ≠ k ∧ e.1.instanceId = j ∧ Member e.2.versionVector j)
    (hflow : ∀ j k, Member view j → Member view k → j ≠ k →
      heard k j ++ arrivals view j (c.channels j k) = (c.managers j).sent)
    (hi : Member view i) (hlocal : Local view (heard i) m')
    (hm' : m'.selfInstanceId = (c.managers i).selfInstanceId)
    (hsent : (c.managers i).sent <+: m'.sent) : Invariant view heard (c.update i m') := by
  rcases hsent with ⟨new, hnew⟩
  have hdrop : m'.sent.drop (c.managers i).sent.length = new := by
    rw [← hnew, drop_left]
  have hfrom : ∀ e ∈ new, e.1.instanceId = i ∧ e.2.versionVector = view := by
    intro e he
    have hspec := hlocal.sent_spec.1 e (hnew ▸ mem_append_right _ he)
    exact ⟨hspec.1.trans (hm'.trans (hself i hi)), hspec.2⟩
  refine ⟨?_, ?_, ?_, ?_⟩
  · exact (forall_update_iff c.managers fun j m => Member view j → m.selfInstanceId = j).mpr
      ⟨fun hi => hm'.trans (hself i hi), fun j _ => hself j⟩
  · exact (forall_update_iff c.managers fun j m => Member view j → Local view (heard j) m).mpr
      ⟨fun _ => hlocal, fun j hji hj => hothers j hj hji⟩
  · intro j k e he
    rw [Cluster.update] at he
    dsimp only at he
    split at he
    · next hjk =>
        rcases mem_append.mp he with he | he
        · exact hwires j k e he
        · rw [hdrop] at he
          have hspec := hfrom e (mem_of_mem_filter he)
          exact ⟨fun hk => hjk.2 (hk ▸ hjk.1), hspec.1.trans hjk.1.symm, hspec.2.symm ▸ hjk.1 ▸ hi⟩
    · exact hwires j k e he
  · intro j k hj hk hjk
    have hold := hflow j k hj hk hjk
    rw [Cluster.update]
    dsimp only
    by_cases hji : j = i
    · subst hji
      have hall : new.filter (fun e => decide (Member e.2.versionVector k)) = new :=
        filter_eq_self.mpr fun e he => decide_eq_true ((hfrom e he).2.symm ▸ hk)
      have harr : arrivals view j new = new :=
        filter_eq_self.mpr fun e he => isFrom_iff.mpr (hfrom e he)
      rw [update_self, if_pos ⟨rfl, hjk.symm⟩, hdrop, hall, arrivals, filter_append,
        ← hnew, ← hold, ← append_assoc]
      exact congrArg _ harr
    · rw [update_of_ne hji, if_neg (fun hc => hji hc.1)]
      exact hold

theorem Invariant.localRequest (h : Invariant view heard c) (hi : Member view i) (message : α) :
    Invariant view heard (c.update i ((c.managers i).localRequest message)) := by
  rcases (h.instances i hi).localRequest message with ⟨hlocal, hself, hsent⟩
  exact Invariant.update h.self (fun j hj _ => h.instances j hj) h.wires h.flow hi
    hlocal hself hsent

theorem Invariant.enterView (h : Invariant view heard c) (hi : Member view i)
    (hsync : (c.managers i).livenessTracker.isInSync = false) :
    Invariant view heard (c.update i ((c.managers i).enterView view)) := by
  have hinc : ∀ j, Member view j → j ≠ (c.managers i).selfInstanceId →
      (heard i j).Pairwise (fun a b => a.1.timestamp < b.1.timestamp) := by
    intro j hj hne
    rw [h.self i hi] at hne
    exact (pairwise_append.mp (h.heard_increasing hj hi hne)).1
  rcases (h.instances i hi).enterView hsync hinc with ⟨hlocal, hself, hsent⟩
  exact Invariant.update h.self (fun j hj _ => h.instances j hj) h.wires h.flow hi
    hlocal hself hsent

theorem channels_pop_of_ne (h : ¬(i = source ∧ j = destination)) :
    (c.pop source destination).channels i j = c.channels i j := by
  rw [Cluster.pop]
  dsimp only
  by_cases hi : i = source
  · subst hi
    rw [update_self, update_of_ne fun hj => h ⟨rfl, hj⟩]
  · rw [update_of_ne hi]

theorem channels_pop {e : Stamped ι α} (h : c.channels source destination = e :: rest) :
    (c.pop source destination).channels source destination = rest := by
  rw [Cluster.pop]
  dsimp only
  rw [update_self, update_self, h, tail_cons]

theorem Invariant.wires_pop (h : Invariant view heard c)
    (source destination : ι) : ∀ j k, ∀ e ∈ (c.pop source destination).channels j k,
      j ≠ k ∧ e.1.instanceId = j ∧ Member e.2.versionVector j := by
  intro j k e he
  refine h.wires j k e ?_
  by_cases hjk : j = source ∧ k = destination
  · rcases hjk with ⟨rfl, rfl⟩
    rw [Cluster.pop] at he
    dsimp only at he
    rw [update_self, update_self] at he
    exact mem_of_mem_tail he
  · rw [channels_pop_of_ne hjk] at he
    exact he

theorem Invariant.receive (h : Invariant view heard c) (hs : Member view source)
    (hd : Member view destination) (hchan : c.channels source destination = e :: rest) :
    ∃ heard', Invariant view heard' ((c.pop source destination).update destination
      ((c.managers destination).handleMessage e)) := by
  rcases h.wires source destination e (hchan ▸ mem_cons_self) with ⟨hne, hinst, hmem⟩
  have hother : e.1.instanceId ≠ (c.managers destination).selfInstanceId := by
    rw [hinst, h.self destination hd]
    exact hne
  have hflow := h.flow source destination hs hd hne
  rw [hchan] at hflow
  by_cases heq : e.2.versionVector = view
  · -- the message moves from the channel to what has been heard
    have hcons : arrivals view source (e :: rest) = e :: arrivals view source rest :=
      filter_cons_of_pos (isFrom_iff.mpr ⟨hinst, heq⟩)
    have hnext : Next view (heard destination) (c.managers destination) e := by
      refine ⟨hother, hinst ▸ heq ▸ hmem, heq, ?_⟩
      intro a ha
      have hinc := h.heard_increasing hs hd hne
      rw [hchan, hcons] at hinc
      rw [hinst] at ha
      exact (pairwise_append.mp hinc).2.2 a ha e mem_cons_self
    rcases (h.instances destination hd).handleMessage_current hnext with ⟨hlocal, hself, hsent⟩
    refine ⟨Function.update heard destination (hearing (heard destination) e), ?_⟩
    refine Invariant.update h.self ?_ (h.wires_pop _ _) ?_ hd ?_ hself hsent
    · intro j hj hjd
      rw [update_of_ne hjd]
      exact h.instances j hj
    · intro j k hj hk hjk
      by_cases hsd : j = source ∧ k = destination
      · rcases hsd with ⟨rfl, rfl⟩
        rw [update_self, channels_pop hchan, hearing, hinst, update_self]
        rw [hcons] at hflow
        rw [append_assoc]
        exact hflow
      · rw [channels_pop_of_ne hsd]
        refine Eq.trans ?_ (h.flow j k hj hk hjk)
        by_cases hkd : k = destination
        · subst hkd
          rw [update_self, hearing, update_of_ne]
          rw [hinst]
          exact fun hjs => hsd ⟨hjs, rfl⟩
        · rw [update_of_ne hkd]
    · rw [update_self]
      exact hlocal
  · have hcons : arrivals view source (e :: rest) = arrivals view source rest :=
      filter_cons_of_neg fun hf => heq (isFrom_iff.mp hf).2
    rcases (h.instances destination hd).handleMessage_foreign hother (hinst.symm ▸ hmem) heq
      with ⟨hlocal, hself, hsent⟩
    refine ⟨heard, Invariant.update h.self
      (fun j hj _ => h.instances j hj) (h.wires_pop _ _) ?_ hd hlocal hself hsent⟩
    intro j k hj hk hjk
    by_cases hsd : j = source ∧ k = destination
    · rcases hsd with ⟨rfl, rfl⟩
      rw [channels_pop hchan]
      rw [hcons] at hflow
      exact hflow
    · rw [channels_pop_of_ne hsd]
      exact h.flow j k hj hk hjk

theorem Invariant.step (h : Invariant view heard c)
    (event : Event ι α) : ∃ heard', Invariant view heard' (c.step view event) := by
  cases event with
  | localRequest i message =>
    rw [Cluster.step]
    split
    · next hi => exact ⟨heard, h.localRequest hi message⟩
    · exact ⟨heard, h⟩
  | receive source destination =>
    rw [Cluster.step]
    split
    · next hsd =>
        split
        · exact ⟨heard, h⟩
        · next e rest hchan => exact h.receive hsd.1 hsd.2 hchan
    · exact ⟨heard, h⟩
  | enterView i =>
    rw [Cluster.step]
    split
    · next hi => exact ⟨heard, h.enterView hi.1 hi.2⟩
    · exact ⟨heard, h⟩

/-! ## Total order -/

/-- The requests stamped by the members of the view. -/
def allRequests (view : VersionVector ι) (c : Cluster ι α) : Set (LogicalTimestamp ι × α) :=
  {e | Member view e.1.instanceId ∧ e ∈ (c.managers e.1.instanceId).requested}

/-- What a member has heard comes before what is under way to it. -/
theorem Invariant.mem_heard (h : Invariant view heard c) (hi : Member view i) (hj : Member view j)
    (hij : i ≠ j) (ha : a ∈ (c.managers i).sent) {known : Timestamp}
    (hknown : (heard j i).getLast?.map (fun e => e.1.timestamp) = some known)
    (hle : a.1.timestamp ≤ known) : a ∈ heard j i := by
  rw [← h.flow i j hi hj hij] at ha
  rcases mem_append.mp ha with ha | ha
  · exact ha
  · rcases Option.map_eq_some_iff.mp hknown with ⟨last, hlast, rfl⟩
    have hlt := (pairwise_append.mp (h.heard_increasing hi hj hij)).2.2 last
      (mem_of_getLast? hlast) a ha
    exact absurd hlt (not_lt.mpr hle)

theorem Invariant.requested_of_mem_log (h : Invariant view heard c) (hi : Member view i)
    (hin : InView view (heard i) (c.managers i)) {e : LogicalTimestamp ι × α}
    (he : e ∈ log (c.managers i)) : e ∈ allRequests view c := by
  rcases (hin.logged.mem_iff e).mp he with hreq | hheard
  · have hown := (hin.logged.own e hreq).trans (h.self i hi)
    exact ⟨hown.symm ▸ hi, hown.symm ▸ hreq⟩
  · rcases hin.clocks.heard_from _ _ hheard with ⟨-, hne, hmem⟩
    rw [h.self i hi] at hne
    refine ⟨hmem, ?_⟩
    have hsent : wire view e ∈ (c.managers e.1.instanceId).sent := by
      rw [← h.flow _ i hmem hi hne]
      exact mem_append_left _ hheard
    rcases (h.instances _ hmem).phase with hw | ⟨hin', -⟩
    · rw [hw.sent] at hsent
      cases hsent
    · exact hin'.outgoing.sent_requested e hsent

/-- A member's requests are broadcast, when there is another member. -/
theorem Invariant.wire_mem_sent (h : Invariant view heard c)
    {e : LogicalTimestamp ι × α} (he : e ∈ allRequests view c) (hsize : view.size ≠ 1) :
    wire view e ∈ (c.managers e.1.instanceId).sent := by
  rcases (h.instances _ he.1).phase with hw | ⟨hin, -⟩
  · have hreq := he.2
    rw [hw.requested] at hreq
    cases hreq
  · exact hin.outgoing.requested_sent hsize e he.2

theorem size_ne_one (hi : Member view i) (hj : Member view j) (hij : i ≠ j) : view.size ≠ 1 := by
  rcases Option.isSome_iff_exists.mp hi with ⟨v, hv⟩
  rcases Option.isSome_iff_exists.mp hj with ⟨w, hw⟩
  intro hsize
  rcases length_eq_one_iff.mp hsize with ⟨x, hx⟩
  have hvm := OrdMap.mem_entries.mpr hv
  have hwm := OrdMap.mem_entries.mpr hw
  rw [hx, mem_singleton] at hvm hwm
  exact hij (congrArg Prod.fst (hvm.trans hwm.symm))

/-- What an instance has released is an initial segment of all requests. -/
theorem Invariant.initial (h : Invariant view heard c) (hi : Member view i) :
    Initial (allRequests view c) (c.managers i).released := by
  rcases (h.instances i hi).phase with hw | ⟨hin, -⟩
  · rw [hw.released]
    exact ⟨List.Pairwise.nil, fun e he => (nomatch he), fun e _ e' he' => (nomatch he')⟩
  · refine ⟨hin.logged.sorted.sublist (sublist_append_left _ _),
      fun e he => h.requested_of_mem_log hi hin (mem_append_left _ he), ?_⟩
    intro e he e' he' hle
    have hlog : e ∈ log (c.managers i) := by
      refine (hin.logged.mem_iff e).mpr ?_
      by_cases hown : e.1.instanceId = i
      · exact .inl (hown ▸ he.2)
      · -- the clock of the sender, as far as it is known, has passed the request
        rcases hin.logged.passed e' he' _ he.1 with ⟨known, hknown, hpassed⟩
        rw [hin.clocks.clock _ ((h.self i hi).symm ▸ hown)] at hknown
        exact .inr (h.mem_heard he.1 hi hown
          (h.wire_mem_sent he (size_ne_one he.1 hi hown)) hknown
          ((LogicalTimestamp.timestamp_le_of_le hle).trans hpassed))
    rcases mem_append.mp hlog with hrel | hqueue
    · exact hrel
    · have hlt := (pairwise_append.mp hin.logged.sorted).2.2 e' he' e hqueue
      exact absurd hlt (not_lt.mpr hle)

/-- A cluster before any of its instances enters the view.  Clocks are arbitrary;
the deferred queues hold local requests and, like the channels, messages of other
views. -/
structure Start (view : VersionVector ι) (α : Type*) where
  cluster : Cluster ι α
  self : ∀ i, (cluster.managers i).selfInstanceId = i
  outOfSync : ∀ i, (cluster.managers i).livenessTracker = ⟨OrdMap.empty, false⟩
  requested : ∀ i, (cluster.managers i).requested = []
  sent : ∀ i, (cluster.managers i).sent = []
  released : ∀ i, (cluster.managers i).released = []
  dropped : ∀ i, (cluster.managers i).dropped = 0
  deferred : ∀ i, ∀ e ∈ (cluster.managers i).deferredQueue,
    Deferrable i e ∧ e.2.versionVector ≠ view
  asked : ∀ i, (cluster.managers i).asked =
    (cluster.managers i).deferredQueue.filterMap (ownMessage i)
  channels : ∀ i j, ∀ e ∈ cluster.channels i j,
    i ≠ j ∧ e.1.instanceId = i ∧ Member e.2.versionVector i ∧ e.2.versionVector ≠ view

/-- A cluster that has just been started. -/
instance : Inhabited (Start view α) where
  default :=
    { cluster :=
        { managers := fun i => ⟨i, ⟨OrdMap.empty, false⟩, 0, 0, OrdMap.empty.insert i 0,
            OrdMap.empty, [], [], [], [], [], 0⟩
          channels := fun _ _ => [] }
      self := fun _ => rfl
      outOfSync := fun _ => rfl
      requested := fun _ => rfl
      sent := fun _ => rfl
      released := fun _ => rfl
      dropped := fun _ => rfl
      deferred := fun _ _ he => (nomatch he)
      asked := fun _ => rfl
      channels := fun _ _ _ he => (nomatch he) }

theorem arrivals_eq_nil_of_ne {l : List (Stamped ι α)} (h : ∀ e ∈ l, e.2.versionVector ≠ view)
    (j : ι) : arrivals view j l = [] :=
  filter_eq_nil_iff.mpr fun e he hf => h e he (isFrom_iff.mp hf).2

theorem Start.invariant (start : Start view α) : Invariant view (fun _ _ => []) start.cluster where
  self := fun i _ => start.self i
  instances := by
    intro i hi
    have hself := start.self i
    refine ⟨hself.symm ▸ hi, ?_, ?_, .inl ⟨start.outOfSync i, start.requested i, start.sent i,
      start.released i, start.dropped i, ?_⟩⟩
    · intro e he
      rw [hself]
      exact (start.deferred i e he).1
    · rw [start.requested, start.asked, hself, map_nil, nil_append]
    · funext j
      exact (arrivals_eq_nil_of_ne (fun e he => (start.deferred i e he).2) j).symm
  wires := fun i j e he =>
    ⟨(start.channels i j e he).1, (start.channels i j e he).2.1, (start.channels i j e he).2.2.1⟩
  flow := by
    intro i j _ _ _
    rw [start.sent]
    exact arrivals_eq_nil_of_ne (fun e he => (start.channels i j e he).2.2.2) i

/-- The guarantees of ordered broadcast in one view. -/
structure TotallyOrdered (view : VersionVector ι) (c : Cluster ι α) : Prop where
  /-- Requests are released in increasing order of `(timestamp, instance id)`. -/
  increasing : ∀ i, Member view i → (c.managers i).released.Pairwise (fun a b => a.1 < b.1)
  /-- Each is released at most once. -/
  once : ∀ i, Member view i → ((c.managers i).released.map Prod.fst).Nodup
  /-- What is released was requested at the instance that stamped it, and sent by it
  to the others. -/
  broadcast : ∀ i, Member view i → ∀ e ∈ (c.managers i).released,
    Member view e.1.instanceId ∧ e ∈ (c.managers e.1.instanceId).requested ∧
      (view.size ≠ 1 → (e.1, ⟨view, .request e.2⟩) ∈ (c.managers e.1.instanceId).sent)
  /-- Local requests are stamped in the order in which they are made. -/
  requested : ∀ i, Member view i → (c.managers i).requested.map Prod.snd <+: (c.managers i).asked
  /-- A request of the view that will still be received is later than all released. -/
  upcoming : ∀ i j, Member view i → Member view j → ∀ lts message,
    (lts, ⟨view, .request message⟩) ∈ c.channels i j → ∀ e ∈ (c.managers j).released, e.1 < lts
  /-- Two instances agree as far as both have got. -/
  agreement : ∀ i j, Member view i → Member view j →
    (c.managers i).released <+: (c.managers j).released ∨
      (c.managers j).released <+: (c.managers i).released
  /-- Nothing is dropped as stale or as a duplicate. -/
  clean : ∀ i, Member view i → (c.managers i).dropped = 0

theorem Invariant.upcoming (h : Invariant view heard c) (hi : Member view i) (hj : Member view j)
    (ha : a ∈ c.channels i j) (hvv : a.2.versionVector = view) {e : LogicalTimestamp ι × α}
    (he : e ∈ (c.managers j).released) : e.1 < a.1 := by
  rcases h.wires i j a ha with ⟨hij, hinst, -⟩
  rcases (h.instances j hj).phase with hw | ⟨hin, -⟩
  · rw [hw.released] at he
    cases he
  · rcases hin.logged.passed e he i hi with ⟨known, hknown, hle⟩
    rw [hin.clocks.clock i ((h.self j hj).symm ▸ hij)] at hknown
    rcases Option.map_eq_some_iff.mp hknown with ⟨last, hlast, rfl⟩
    have harr : a ∈ arrivals view i (c.channels i j) :=
      mem_filter.mpr ⟨ha, isFrom_iff.mpr ⟨hinst, hvv⟩⟩
    have hlt := (pairwise_append.mp (h.heard_increasing hi hj hij)).2.2 last
      (mem_of_getLast? hlast) a harr
    exact LogicalTimestamp.lt_of_timestamp_lt (hle.trans_lt hlt)

theorem Invariant.totallyOrdered (h : Invariant view heard c) : TotallyOrdered view c where
  increasing := fun i hi => (h.initial hi).sorted
  once := by
    intro i hi
    exact (h.initial hi).sorted.nodup
  broadcast := by
    intro i hi e he
    have hreq := (h.initial hi).subset e he
    exact ⟨hreq.1, hreq.2, h.wire_mem_sent hreq⟩
  requested := fun i hi => ⟨_, (h.instances i hi).asked⟩
  upcoming := fun i j hi hj lts message ha e he => h.upcoming hi hj ha rfl he
  agreement := fun i j hi hj => (h.initial hi).comparable (h.initial hj)
  clean := by
    intro i hi
    rcases (h.instances i hi).phase with hw | ⟨hin, -⟩
    · exact hw.clean
    · exact hin.clean

/-- In every state of every run, whatever the interleaving of local requests, of
deliveries and of the instances entering the view, ordered broadcast is a total
order. -/
theorem ordered_broadcast_total_order (start : Start view α) (events : List (Event ι α)) :
    TotallyOrdered view (Runs.run (Cluster.step view) start.cluster events) := by
  have hstep : ∀ (c : Cluster ι α) event, (∃ heard, Invariant view heard c) →
      ∃ heard, Invariant view heard (c.step view event) := by
    rintro c event ⟨heard, h⟩
    exact h.step event
  rcases Runs.run_invariant hstep ⟨_, start.invariant⟩ events with ⟨heard, h⟩
  exact h.totallyOrdered

end SciDB.Network.OrderedBcast
