import Mathlib
import SciDB.Lib.OrderedMap
import SciDB.Network.OrderedBcast

/-!
# Ordered broadcast in one instance

A manager in the view keeps three groups of facts.  The last clock it knows of
another member is the timestamp of the last message heard from it.  The requests
released and those in the queue are, in order, the local ones and those heard,
and every known clock has passed what is released.  What it has broadcast has
increasing timestamps, none larger than the last one noted.

Main results:

- Theorem {lit}`InView.stampLocalRequest`: a local request keeps these facts.
- Theorems {lit}`InView.deliverRemoteRequest` and {lit}`InView.deliverRemoteReply`:
  so does a message that has not been heard, and it is never dropped.
-/

namespace SciDB.Network.OrderedBcast

open OrderedMap Cluster Runs List OrdMap

variable {ι α : Type*} [LinearOrder ι] {view vv : VersionVector ι} {c : Comparison}
  {l o : List (ι × Nat)}

/-! ## Views -/

theorem compareVersions_self (l : List (ι × Nat)) (c : Comparison) : compareVersions l l c = c := by
  induction l with
  | nil => rw [compareVersions]
  | cons e l ih => rw [compareVersions, if_pos rfl, if_neg (lt_irrefl _), if_neg (lt_irrefl _), ih]

/-- No flag is taken back. -/
theorem compareVersions_clear (h : compareVersions l o c = ⟨false, false, false⟩) :
    c = ⟨false, false, false⟩ := by
  fun_induction compareVersions l o c with
  | case1 v ls i w os c hgt ih => simpa using ih h
  | case2 v ls i w os c hgt hlt ih => simpa using ih h
  | case3 v ls i w os c hgt hlt ih => exact ih h
  | case4 i v ls j w os c hne hlt ih => simpa using ih h
  | case5 i v ls j w os c hne hlt ih => simpa using ih h
  | case6 => exact h
  | case7 => exact h

theorem eq_of_compareVersions (h : compareVersions l o c = ⟨false, false, false⟩)
    (hlen : o.length = l.length) : o = l := by
  fun_induction compareVersions l o c with
  | case1 v ls i w os c hgt ih => simpa using compareVersions_clear h
  | case2 v ls i w os c hgt hlt ih => simpa using compareVersions_clear h
  | case3 v ls i w os c hgt hlt ih =>
    have hv : w = v := le_antisymm (not_lt.mp hlt) (not_lt.mp hgt)
    rw [ih h (Nat.succ.inj hlen), hv]
  | case4 i v ls j w os c hne hlt ih => simpa using compareVersions_clear h
  | case5 i v ls j w os c hne hlt ih => simpa using compareVersions_clear h
  | case6 => exact length_eq_zero_iff.mp hlen
  | case7 => cases hlen

theorem entries_inj {m m' : VersionVector ι} (h : m.entries = m'.entries) : m = m' := by
  cases m
  congr

theorem size_ne_zero {i : ι} (h : Member view i) : view.size ≠ 0 := by
  rcases Option.isSome_iff_exists.mp h with ⟨v, hv⟩
  exact Nat.ne_of_gt (length_pos_of_mem (mem_entries.mpr hv))

/-- An instance in sync delivers exactly the messages of its view. -/
theorem action_eq_deliver_iff (hview : view.size ≠ 0) :
    (LivenessTracker.mk view true).getMsgDeliveryAction vv = .deliver ↔ vv = view := by
  rw [LivenessTracker.getMsgDeliveryAction, if_neg hview]
  dsimp only
  constructor
  · intro h
    split at h
    · next hc =>
        simp only [Bool.and_true, Bool.and_eq_true, Bool.not_eq_true', Bool.or_eq_false_iff,
          decide_eq_false_iff_not, not_not] at hc
        refine entries_inj (eq_of_compareVersions (c := ⟨false, false, false⟩) ?_ hc.1.1.2)
        rcases hr : compareVersions view.entries vv.entries ⟨false, false, false⟩ with ⟨a, b, c⟩
        simp_all
    · split at h <;> cases h
  · rintro rfl
    rw [compareVersions_self]
    simp

/-! ## A manager in the view -/

variable {m : Manager ι α} {heard : ι → List (Stamped ι α)} {j : ι} {lts : LogicalTimestamp ι}

variable (view)

/-- A request of the view, as it is on a channel. -/
def wire (e : LogicalTimestamp ι × α) : Stamped ι α :=
  (e.1, ⟨view, .request e.2⟩)

/-- The last clock known of another member is that of the last message heard. -/
structure Clocks (heard : ι → List (Stamped ι α)) (m : Manager ι α) :
    Prop where
  tracker : m.livenessTracker = ⟨view, true⟩
  member : Member view m.selfInstanceId
  heard_from : ∀ j, ∀ e ∈ heard j, e.1.instanceId = j ∧ j ≠ m.selfInstanceId ∧ Member view j
  clock : ∀ j, j ≠ m.selfInstanceId →
    m.remoteTimestamps.get j = (heard j).getLast?.map (fun e => e.1.timestamp)
  own_clock : ∃ c, m.remoteTimestamps.get m.selfInstanceId = some c ∧ c ≤ m.ts

/-- The requests released, and those in the queue behind them. -/
def log (m : Manager ι α) : List (LogicalTimestamp ι × α) :=
  m.released ++ m.queue.entries

/-- The log holds every request made or heard, in order, and nothing else; every
clock has passed what is released. -/
structure Logged (heard : ι → List (Stamped ι α)) (m : Manager ι α) :
    Prop where
  own : ∀ e ∈ m.requested, e.1.instanceId = m.selfInstanceId
  sorted : Sorted (log m)
  le_ts : ∀ e ∈ log m, e.1.timestamp ≤ m.ts
  mem_iff : ∀ e, e ∈ log m ↔ e ∈ m.requested ∨ wire view e ∈ heard e.1.instanceId
  passed : ∀ e ∈ m.released, ∀ j, Member view j →
    ∃ c, m.remoteTimestamps.get j = some c ∧ e.1.timestamp ≤ c

/-- What is broadcast has increasing timestamps, and the requests are among it. -/
structure Outgoing (m : Manager ι α) : Prop where
  sent_from : ∀ e ∈ m.sent, e.1.instanceId = m.selfInstanceId ∧ e.2.versionVector = view ∧
    e.1.timestamp ≤ m.lastBroadcastTs
  increasing : m.sent.Pairwise (fun a b => a.1.timestamp < b.1.timestamp)
  last_le : m.lastBroadcastTs ≤ m.ts
  requested_sent : view.size ≠ 1 → ∀ e ∈ m.requested, wire view e ∈ m.sent
  sent_requested : ∀ e, wire view e ∈ m.sent → e ∈ m.requested

structure InView (heard : ι → List (Stamped ι α)) (m : Manager ι α) :
    Prop where
  clocks : Clocks view heard m
  logged : Logged view heard m
  outgoing : Outgoing view m
  clean : m.dropped = 0

variable {view} {c : Timestamp}

/-- The requests made and what is deferred do not matter. -/
theorem InView.frame (h : InView view heard m) (asked : List α) (deferred : List (Stamped ι α)) :
    InView view heard { m with asked := asked, deferredQueue := deferred } :=
  ⟨{ h.clocks with }, { h.logged with }, { h.outgoing with }, h.clean⟩

/-- The clocks known are those of members of the view. -/
theorem Clocks.get_member (h : Clocks view heard m)
    (hc : m.remoteTimestamps.get j = some c) : Member view j := by
  by_cases hj : j = m.selfInstanceId
  · exact hj ▸ h.member
  · rw [h.clock j hj] at hc
    rcases Option.map_eq_some_iff.mp hc with ⟨e, he, -⟩
    exact (h.heard_from j e (mem_of_getLast? he)).2.2

/-! ### Releasing -/

/-- What may be released has been passed by the clock of every member. -/
theorem Clocks.passed_of_ok (h : Clocks view heard m) (hok : m.isOkToRelease lts)
    (hj : Member view j) :
    ∃ c, m.remoteTimestamps.get j = some c ∧ lts.timestamp ≤ c := by
  rw [Manager.isOkToRelease, h.tracker] at hok
  split at hok
  · cases hok
  · next hsize =>
      rcases Option.isSome_iff_exists.mp hj with ⟨v, hv⟩
      have hsub : ∀ k c, m.remoteTimestamps.get k = some c → ∃ w, view.get k = some w :=
        fun k c hc => Option.isSome_iff_exists.mp (h.get_member hc)
      rcases exists_get_of_size_le hsub (not_lt.mp hsize) hv with ⟨c, hc⟩
      have hle := all_eq_true.mp hok _ (mem_entries.mpr hc)
      exact ⟨c, hc, not_lt.mp (of_decide_eq_true hle)⟩

theorem Clocks.noteClock (h : Clocks view heard m) : Clocks view heard m.noteClock :=
  { h with
    clock := by
      intro j hj
      exact (get_insert j).trans ((if_neg hj).trans (h.clock j hj))
    own_clock := ⟨m.ts, by rw [Manager.noteClock, get_insert, if_pos rfl], le_rfl⟩ }

theorem Logged.noteClock (hc : Clocks view heard m) (h : Logged view heard m) :
    Logged view heard m.noteClock := by
  refine { h with passed := ?_ }
  intro e he j hj
  rcases h.passed e he j hj with ⟨c, hget, hle⟩
  rw [Manager.noteClock, get_insert]
  split
  · next heq =>
      rcases hc.own_clock with ⟨c', hget', hle'⟩
      rw [heq, hget'] at hget
      exact ⟨m.ts, rfl, hle.trans (Option.some.inj hget ▸ hle')⟩
  · exact ⟨c, hget, hle⟩

theorem log_releaseQueue (m : Manager ι α) : log m.releaseQueue = log m := by
  rw [log, log, Manager.releaseQueue, OrdMap.dropWhile, append_assoc, takeWhile_append_dropWhile]

theorem Logged.releaseQueue (hc : Clocks view heard m) (h : Logged view heard m) :
    Logged view heard m.releaseQueue where
  own := h.own
  sorted := (log_releaseQueue m).symm ▸ h.sorted
  le_ts := (log_releaseQueue m).symm ▸ h.le_ts
  mem_iff := (log_releaseQueue m).symm ▸ h.mem_iff
  passed := by
    intro e he j hj
    rcases mem_append.mp he with he | he
    · exact h.passed e he j hj
    · have hok : m.isOkToRelease e.1 = true := by
        simpa using mem_takeWhile_imp he
      exact hc.passed_of_ok hok hj

theorem InView.release (h : InView view heard m) : InView view heard m.release := by
  rw [Manager.release, h.clocks.tracker]
  have hc := h.clocks.noteClock
  have hl := Logged.releaseQueue hc (h.logged.noteClock h.clocks)
  exact ⟨{ hc with }, hl, { h.outgoing with }, h.clean⟩

/-! ### Broadcasting -/

/-- A message later than the last one broadcast goes behind all of them. -/
theorem Outgoing.concat (h : Outgoing view m) {e : Stamped ι α}
    (hfrom : e.1.instanceId = m.selfInstanceId ∧ e.2.versionVector = view)
    (hlt : m.lastBroadcastTs < e.1.timestamp) :
    (∀ a ∈ m.sent ++ [e], a.1.instanceId = m.selfInstanceId ∧ a.2.versionVector = view ∧
      a.1.timestamp ≤ e.1.timestamp) ∧
      (m.sent ++ [e]).Pairwise (fun a b => a.1.timestamp < b.1.timestamp) := by
  have hle := fun a ha => (h.sent_from a ha).2.2.trans_lt hlt
  constructor
  · refine forall_mem_concat ?_ ⟨hfrom.1, hfrom.2, le_rfl⟩
    exact fun a ha => ⟨(h.sent_from a ha).1, (h.sent_from a ha).2.1, (hle a ha).le⟩
  · refine pairwise_append.mpr ⟨h.increasing, pairwise_singleton _ _, ?_⟩
    intro a ha b hb
    rw [mem_singleton.mp hb]
    exact hle a ha

theorem Outgoing.broadcastReply (h : Outgoing view m) (hlt : m.lastBroadcastTs < m.ts) (i : ι)
    (t : Timestamp) : Outgoing view (m.broadcastReply i t view) where
  sent_from := (h.concat ⟨rfl, rfl⟩ hlt).1
  increasing := (h.concat ⟨rfl, rfl⟩ hlt).2
  last_le := le_rfl
  requested_sent := fun hsize e he => mem_append_left _ (h.requested_sent hsize e he)
  sent_requested := by
    intro e he
    rcases mem_append.mp he with he | he
    · exact h.sent_requested e he
    · cases congrArg (fun a => a.2.content) (mem_singleton.mp he)

theorem InView.broadcastReply (h : InView view heard m) (hlt : m.lastBroadcastTs < m.ts) (i : ι)
    (t : Timestamp) : InView view heard (m.broadcastReply i t view) :=
  ⟨{ h.clocks with }, { h.logged with }, h.outgoing.broadcastReply hlt i t, h.clean⟩

/-! ### A local request -/

/-- The clock moves on. -/
theorem InView.tick (h : InView view heard m) {t : Timestamp} (ht : m.ts ≤ t) :
    InView view heard { m with ts := t } :=
  ⟨{ h.clocks with
      own_clock := h.clocks.own_clock.imp fun _ hc => ⟨hc.1, hc.2.trans ht⟩ },
    { h.logged with le_ts := fun e he => (h.logged.le_ts e he).trans ht },
    { h.outgoing with last_le := h.outgoing.last_le.trans ht }, h.clean⟩

theorem enqueue_of_none (h : m.queue.get lts = none) (message : α) :
    m.enqueue lts message = { m with queue := m.queue.insert lts message } := by
  rw [Manager.enqueue, h]

/-- The manager with a new request of its own in the queue. -/
def withRequest (m : Manager ι α) (message : α) : Manager ι α :=
  { m with
    queue := m.queue.insert ⟨m.ts, m.selfInstanceId⟩ message
    requested := m.requested ++ [(⟨m.ts, m.selfInstanceId⟩, message)] }

theorem queue_get_of_lt (lts : LogicalTimestamp ι)
    (h : ∀ e ∈ log m, e.1.timestamp < lts.timestamp) :
    m.queue.get lts = none := by
  cases hg : m.queue.get lts with
  | none => rfl
  | some x =>
    have hmem : (lts, x) ∈ log m := mem_append_right _ (mem_entries.mpr hg)
    exact absurd (h _ hmem) (lt_irrefl _)

/-- A request later than everything released goes into the log. -/
theorem Logged.insert (h : Logged view heard m) (message : α) (hnone : m.queue.get lts = none)
    (hle : lts.timestamp ≤ m.ts) (hlate : ∀ a ∈ m.released, a.1.timestamp < lts.timestamp) :
    let log' := m.released ++ (m.queue.insert lts message).entries
    Sorted log' ∧ (∀ e ∈ log', e.1.timestamp ≤ m.ts) ∧
      ∀ e, e ∈ log' ↔ e = (lts, message) ∨ e ∈ log m := by
  have hmem : ∀ e, e ∈ m.released ++ (m.queue.insert lts message).entries ↔
      e = (lts, message) ∨ e ∈ log m := by
    intro e
    rw [mem_append, mem_insert_of_none hnone, log, mem_append]
    exact or_left_comm
  refine ⟨?_, ?_, hmem⟩
  · exact Sorted.append_put h.sorted fun a ha => LogicalTimestamp.lt_of_timestamp_lt (hlate a ha)
  · intro e he
    rcases (hmem e).mp he with rfl | he
    · exact hle
    · exact h.le_ts e he

theorem Logged.withRequest (h : Logged view heard m) (hlt : ∀ e ∈ log m, e.1.timestamp < m.ts)
    (message : α) : Logged view heard (withRequest m message) := by
  rcases h.insert message (queue_get_of_lt ⟨m.ts, m.selfInstanceId⟩ hlt) le_rfl
    (fun e he => hlt e (mem_append_left _ he)) with ⟨hsorted, hle, hmem⟩
  refine ⟨forall_mem_concat h.own rfl, hsorted, hle, ?_, h.passed⟩
  intro e
  rw [log, OrderedBcast.withRequest, hmem, h.mem_iff, mem_append, mem_singleton, or_assoc,
    or_left_comm]

/-- Broadcasting the new request. -/
theorem Outgoing.broadcastRequest (h : Outgoing view m) (hlt : m.lastBroadcastTs < m.ts)
    (message : α) : Outgoing view ((withRequest m message).broadcastRequest
      ⟨m.ts, m.selfInstanceId⟩ message view) where
  sent_from := (h.concat ⟨rfl, rfl⟩ hlt).1
  increasing := (h.concat ⟨rfl, rfl⟩ hlt).2
  last_le := le_rfl
  requested_sent := by
    intro hsize
    refine forall_mem_concat ?_ (mem_append_right _ (mem_singleton_self _))
    exact fun e he => mem_append_left _ (h.requested_sent hsize e he)
  sent_requested := by
    intro e he
    rcases mem_append.mp he with he | he
    · exact mem_append_left _ (h.sent_requested e he)
    · rcases e with ⟨lts, x⟩
      cases mem_singleton.mp he
      exact mem_append_right _ (mem_singleton_self _)

theorem stampLocalRequest_eq (m : Manager ι α) (message : α)
    (h : ∀ e ∈ log m, e.1.timestamp ≤ m.ts) :
    m.stampLocalRequest message view =
      if view.size = 1 then (withRequest { m with ts := m.ts + 1 } message).release
      else (withRequest { m with ts := m.ts + 1 } message).broadcastRequest
        ⟨m.ts + 1, m.selfInstanceId⟩ message view := by
  have hnone : { m with ts := m.ts + 1 }.queue.get ⟨m.ts + 1, m.selfInstanceId⟩ = none :=
    queue_get_of_lt _ fun e he => Nat.lt_succ_of_le (h e he)
  rw [Manager.stampLocalRequest, Manager.deliverLocalRequest]
  rw [enqueue_of_none hnone]
  rfl

theorem InView.stampLocalRequest (h : InView view heard m) (message : α) :
    InView view heard (m.stampLocalRequest message view) := by
  rw [stampLocalRequest_eq m message h.logged.le_ts]
  have htick := h.tick (Nat.le_succ m.ts)
  have hl := htick.logged.withRequest (fun e he => Nat.lt_succ_of_le (h.logged.le_ts e he)) message
  split
  · next hsize =>
      -- nothing is broadcast in a view of one instance
      refine InView.release ⟨{ htick.clocks with }, hl, ?_, h.clean⟩
      exact { htick.outgoing with
        requested_sent := fun hne => absurd hsize hne
        sent_requested := fun e he => mem_append_left _ (htick.outgoing.sent_requested e he) }
  · have hout := htick.outgoing.broadcastRequest (Nat.lt_succ_of_le h.outgoing.last_le) message
    exact ⟨{ htick.clocks with }, { hl with }, hout, h.clean⟩

/-! ### A remote message -/

/-- A message of the view that has not been heard, from another member. -/
structure Next (view : VersionVector ι) (heard : ι → List (Stamped ι α)) (m : Manager ι α)
    (e : Stamped ι α) : Prop where
  other : e.1.instanceId ≠ m.selfInstanceId
  member : Member view e.1.instanceId
  current : e.2.versionVector = view
  late : ∀ a ∈ heard e.1.instanceId, a.1.timestamp < e.1.timestamp

/-- What is heard, with one more message. -/
def hearing (heard : ι → List (Stamped ι α)) (e : Stamped ι α) : ι → List (Stamped ι α) :=
  Function.update heard e.1.instanceId (heard e.1.instanceId ++ [e])

variable {e : Stamped ι α} {message : α}

theorem mem_hearing {a : Stamped ι α} :
    a ∈ hearing heard e j ↔ a ∈ heard j ∨ j = e.1.instanceId ∧ a = e := by
  by_cases hj : j = e.1.instanceId
  · subst hj
    simp [hearing]
  · simp [hearing, hj]

section

variable (hn : Next view heard m e)

include hn

theorem Next.known_lt (h : Clocks view heard m)
    (hc : m.remoteTimestamps.get e.1.instanceId = some c) : c < e.1.timestamp := by
  rw [h.clock _ hn.other] at hc
  rcases Option.map_eq_some_iff.mp hc with ⟨a, ha, rfl⟩
  exact hn.late a (mem_of_getLast? ha)

theorem Next.not_stale (h : Clocks view heard m) : m.isStale e.1 = false := by
  rw [Manager.isStale]
  cases hc : m.remoteTimestamps.get e.1.instanceId with
  | none => rfl
  | some c => exact decide_eq_false (not_le.mpr (hn.known_lt h hc))

/-- Everything released is earlier. -/
theorem Next.released_lt (h : Clocks view heard m) (hl : Logged view heard m)
    {a : LogicalTimestamp ι × α} (ha : a ∈ m.released) :
    a.1.timestamp < e.1.timestamp := by
  rcases hl.passed a ha _ hn.member with ⟨c, hc, hle⟩
  exact hle.trans_lt (hn.known_lt h hc)

/-- The message is not in the queue yet. -/
theorem Next.queue_get (hl : Logged view heard m) : m.queue.get e.1 = none := by
  cases hg : m.queue.get e.1 with
  | none => rfl
  | some x =>
    have hmem : (e.1, x) ∈ log m := mem_append_right _ (mem_entries.mpr hg)
    rcases (hl.mem_iff _).mp hmem with hreq | hheard
    · exact absurd (hl.own _ hreq) hn.other
    · exact absurd (hn.late _ hheard) (lt_irrefl _)

end

theorem Clocks.hear (h : Clocks view heard m) (hn : Next view heard m e) :
    Clocks view (hearing heard e) (m.hear e.1) where
  tracker := h.tracker
  member := h.member
  heard_from := by
    intro j a ha
    rcases mem_hearing.mp ha with ha | ⟨rfl, rfl, rfl⟩
    · exact h.heard_from j a ha
    · exact ⟨rfl, hn.other, hn.member⟩
  clock := by
    intro j hj
    rw [Manager.hear, get_insert, hearing]
    by_cases heq : j = e.1.instanceId
    · subst heq
      simp
    · rw [if_neg heq, Function.update_of_ne heq]
      exact h.clock j hj
  own_clock := by
    rcases h.own_clock with ⟨c, hget, hle⟩
    refine ⟨c, ?_, hle⟩
    rw [Manager.hear, get_insert]
    exact (if_neg hn.other.symm).trans hget

theorem Logged.passed_hear (hc : Clocks view heard m) (h : Logged view heard m)
    (hn : Next view heard m e) : ∀ a ∈ m.released, ∀ j, Member view j →
      ∃ c, (m.hear e.1).remoteTimestamps.get j = some c ∧ a.1.timestamp ≤ c := by
  intro a ha j hj
  rw [Manager.hear, get_insert]
  split
  · exact ⟨e.1.timestamp, rfl, (hn.released_lt hc h ha).le⟩
  · exact h.passed a ha j hj

section

variable (h : InView view heard m)

include h

/-- A reply adds nothing to the log. -/
theorem InView.hearReply (hn : Next view heard m e)
    (hreply : ∀ message, e.2.content ≠ .request message) :
    InView view (hearing heard e) (m.hear e.1) := by
  refine ⟨h.clocks.hear hn, { h.logged with
    mem_iff := ?_, passed := Logged.passed_hear h.clocks h.logged hn },
      { h.outgoing with }, h.clean⟩
  intro a
  have hne : wire view a ≠ e := by
    rintro rfl
    exact hreply a.2 rfl
  rw [mem_hearing]
  simp only [hne, and_false, or_false]
  exact h.logged.mem_iff a

/-- A request goes into the queue. -/
theorem InView.hearRequest (hn : Next view heard m e) (he : e.2.content = .request message)
    (hle : e.1.timestamp ≤ m.ts) :
    InView view (hearing heard e) ((m.enqueue e.1 message).hear e.1) := by
  have hnone := hn.queue_get h.logged
  have heq : e = wire view (e.1, message) := by
    rcases e with ⟨lts, vv, content⟩
    cases he
    cases hn.current
    rfl
  have hlate := fun a ha => hn.released_lt h.clocks h.logged (a := a) ha
  rcases h.logged.insert message hnone hle hlate with ⟨hsorted, hle', hmem⟩
  rw [enqueue_of_none hnone]
  refine ⟨{ h.clocks.hear hn with }, ⟨h.logged.own, hsorted, hle', ?_, ?_⟩, { h.outgoing with },
    h.clean⟩
  · intro a
    have hwire : a.1.instanceId = e.1.instanceId ∧ wire view a = e ↔ a = (e.1, message) := by
      constructor
      · rintro ⟨-, ha⟩
        rw [heq] at ha
        rcases a with ⟨lts, x⟩
        cases ha
        rfl
      · rintro rfl
        exact ⟨rfl, heq.symm⟩
    rw [mem_hearing, hwire, log, Manager.hear, hmem, h.logged.mem_iff, or_comm, or_assoc]
  · exact Logged.passed_hear h.clocks h.logged hn

theorem InView.acknowledge (hlt : m.lastBroadcastTs < m.ts) (lts : LogicalTimestamp ι)
    (isReply : Bool) :
    InView view heard (m.acknowledge lts view isReply) := by
  rw [Manager.acknowledge]
  split
  · exact h.broadcastReply hlt _ _
  · exact h

theorem InView.advance (t : Timestamp) : InView view heard (m.advance t) :=
  h.tick ((le_max_left _ _).trans (Nat.le_succ _))

/-- A request of the view is delivered. -/
theorem InView.deliverRemoteRequest (hn : Next view heard m e) (he : e.2.content = .request message)
    (isReply : Bool) :
    let r := (m.advance e.1.timestamp).deliverRemoteRequest e.1 message view isReply
    InView view (hearing heard e) r.1 ∧ r.2 = true := by
  have hadv := h.advance e.1.timestamp
  have hn' : Next view heard (m.advance e.1.timestamp) e := { hn with }
  have hle : e.1.timestamp ≤ (m.advance e.1.timestamp).ts :=
    (le_max_right _ _).trans (Nat.le_succ _)
  have hreq := hadv.hearRequest hn' he hle
  have hnone := hn'.queue_get hadv.logged
  rw [Manager.deliverRemoteRequest, hn'.not_stale hadv.clocks, hnone]
  refine ⟨(hreq.acknowledge ?_ e.1 isReply).release, rfl⟩
  rw [enqueue_of_none hnone]
  exact Nat.lt_succ_of_le (h.outgoing.last_le.trans (le_max_left _ _))

/-- A reply of the view is delivered. -/
theorem InView.deliverRemoteReply (hn : Next view heard m e)
    (he : ∀ message, e.2.content ≠ .request message) :
    InView view (hearing heard e) ((m.advance e.1.timestamp).deliverRemoteReply e.1) := by
  have hadv := h.advance e.1.timestamp
  have hn' : Next view heard (m.advance e.1.timestamp) e := { hn with }
  rw [Manager.deliverRemoteReply, hn'.not_stale hadv.clocks]
  exact (hadv.hearReply hn' he).release

end

/-! ## What stays the same -/

/-- The identity of a manager stays, its clock does not go back, and what it has
sent only grows. -/
structure Grows (m m' : Manager ι α) : Prop where
  self : m'.selfInstanceId = m.selfInstanceId
  ts : m.ts ≤ m'.ts
  sent : m.sent <+: m'.sent
  asked : m'.asked = m.asked
  requested : m'.requested = m.requested
  deferred : m'.deferredQueue = m.deferredQueue

namespace Grows

variable {m' m'' : Manager ι α}

theorem rfl' : Grows m m :=
  ⟨rfl, le_rfl, prefix_rfl, rfl, rfl, rfl⟩

theorem trans (h : Grows m m') (h' : Grows m' m'') : Grows m m'' :=
  ⟨h'.self.trans h.self, h.ts.trans h'.ts, h.sent.trans h'.sent, h'.asked.trans h.asked,
    h'.requested.trans h.requested, h'.deferred.trans h.deferred⟩

theorem release : Grows m m.release := by
  rw [Manager.release]
  split
  · exact ⟨rfl, le_rfl, prefix_rfl, rfl, rfl, rfl⟩
  · exact rfl'

theorem broadcastReply (i : ι) (t : Timestamp) : Grows m (m.broadcastReply i t vv) :=
  ⟨rfl, le_rfl, prefix_append _ _, rfl, rfl, rfl⟩

variable (lts)

theorem enqueue (message : α) : Grows m (m.enqueue lts message) := by
  rw [Manager.enqueue]
  split
  · exact rfl'
  · exact ⟨rfl, le_rfl, prefix_rfl, rfl, rfl, rfl⟩

/-- Besides that, a local request is noted. -/
theorem stampLocalRequest (vv : VersionVector ι) (message : α) :
    Grows { m with requested := m.requested ++ [(⟨m.ts + 1, m.selfInstanceId⟩, message)] }
      (m.stampLocalRequest message vv) := by
  rw [Manager.stampLocalRequest, Manager.deliverLocalRequest]
  have htick : Grows m { m with ts := m.ts + 1 } :=
    ⟨rfl, Nat.le_succ _, prefix_rfl, rfl, rfl, rfl⟩
  have henq := htick.trans (enqueue ⟨m.ts + 1, m.selfInstanceId⟩ message)
  split
  · refine Grows.trans ?_ release
    exact ⟨henq.self, henq.ts, henq.sent, henq.asked, rfl, henq.deferred⟩
  · exact ⟨henq.self, henq.ts, henq.sent.trans (prefix_append _ _), henq.asked, rfl, henq.deferred⟩

theorem hear : Grows m (m.hear lts) :=
  ⟨rfl, le_rfl, prefix_rfl, rfl, rfl, rfl⟩

theorem drop : Grows m m.drop :=
  ⟨rfl, le_rfl, prefix_rfl, rfl, rfl, rfl⟩

theorem advance (t : Timestamp) : Grows m (m.advance t) :=
  ⟨rfl, (le_max_left _ _).trans (Nat.le_succ _), prefix_rfl, rfl, rfl, rfl⟩

theorem acknowledge (isReply : Bool) : Grows m (m.acknowledge lts vv isReply) := by
  rw [Manager.acknowledge]
  split
  · exact broadcastReply _ _
  · exact rfl'

theorem deliverRemoteRequest (vv : VersionVector ι) (lts : LogicalTimestamp ι) (message : α)
    (isReply : Bool) :
    Grows m (m.deliverRemoteRequest lts message vv isReply).1 := by
  rw [Manager.deliverRemoteRequest]
  split
  · exact drop
  · split
    · exact drop
    · exact (((enqueue lts message).trans (hear lts)).trans (acknowledge lts isReply)).trans release

theorem deliverRemoteReply : Grows m (m.deliverRemoteReply lts) := by
  rw [Manager.deliverRemoteReply]
  split
  · exact drop
  · exact (hear lts).trans release

variable {lts}

end Grows

end SciDB.Network.OrderedBcast
