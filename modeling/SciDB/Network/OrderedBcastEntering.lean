import Mathlib
import SciDB.Lib.OrderedMap
import SciDB.Network.OrderedBcast
import SciDB.Network.OrderedBcastLocal

/-!
# Entering a view

A manager that is not in sync only defers.  When it enters the view, the loop over
the deferred entries makes the local requests and hears the messages of the view
in the order of their arrival, and leaves those of other views alone.

Main results:

- Theorem {lit}`Swept.foldl`: the loop over the deferred entries.
- Theorems {lit}`Local.enterView`, {lit}`Local.localRequest`,
  {lit}`Local.handleMessage_current` and {lit}`Local.handleMessage_foreign`: what
  an event at one instance keeps, before and after it enters the view.
-/

namespace SciDB.Network.OrderedBcast

open OrderedMap Cluster Runs List
open Manager (currentVersion sweepStep)

variable {ι α : Type*} [LinearOrder ι] {view vv : VersionVector ι} {m : Manager ι α}
  {heard : ι → List (Stamped ι α)} {e : Stamped ι α} {self j : ι}

/-! ## Entering the view -/

/-- What can stand in the deferred queue of an instance: a local request, which is
not versioned, or a message of another instance. -/
inductive Deferrable (self : ι) : Stamped ι α → Prop where
  | own (t : Timestamp) (message : α) {vv : VersionVector ι} (hvv : vv.size = 0) :
      Deferrable self (⟨t, self⟩, ⟨vv, .request message⟩)
  | remote (e : Stamped ι α) (other : e.1.instanceId ≠ self)
      (member : Member e.2.versionVector e.1.instanceId) : Deferrable self e

/-- The message of a local request. -/
def ownMessage (self : ι) (e : Stamped ι α) : Option α :=
  match e.2.content with
  | .request message => if e.1.instanceId = self then some message else none
  | .reply _ _ => none

theorem ownMessage_of_ne (h : e.1.instanceId ≠ self) : ownMessage self e = none := by
  rw [ownMessage]
  cases e.2.content with
  | request message => exact if_neg h
  | reply _ _ => rfl

variable (l : List (Stamped ι α))

theorem filterMap_ownMessage_concat (h : e.1.instanceId ≠ self) :
    (l ++ [e]).filterMap (ownMessage self) = l.filterMap (ownMessage self) := by
  simp [ownMessage_of_ne h]

/-- A message from an instance, sent in the view. -/
def isFrom (view : VersionVector ι) (j : ι) (e : Stamped ι α) : Bool :=
  decide (e.1.instanceId = j ∧ e.2.versionVector.entries = view.entries)

/-- The messages of the view from one instance. -/
def arrivals (view : VersionVector ι) (j : ι) (l : List (Stamped ι α)) : List (Stamped ι α) :=
  l.filter (isFrom view j)

theorem isFrom_iff : isFrom view j e = true ↔ e.1.instanceId = j ∧ e.2.versionVector = view := by
  rw [isFrom, decide_eq_true_iff]
  exact and_congr_right fun _ => ⟨entries_inj, congrArg _⟩

theorem arrivals_concat (j : ι) (l : List (Stamped ι α)) :
    arrivals view j (l ++ [e]) = arrivals view j l ++ if isFrom view j e then [e] else [] := by
  rw [arrivals, filter_append, filter_singleton, Bool.cond_eq_ite]
  rfl

theorem arrivals_concat_of_ne (h : e.2.versionVector ≠ view) :
    (fun j => arrivals view j (l ++ [e])) = fun j => arrivals view j l := by
  funext j
  rw [arrivals_concat, if_neg (fun hj => h (isFrom_iff.mp hj).2), append_nil]

theorem arrivals_concat_eq_hearing (h : e.2.versionVector = view) :
    (fun j => arrivals view j (l ++ [e])) = hearing (fun j => arrivals view j l) e := by
  funext j
  rw [arrivals_concat, hearing]
  by_cases hj : j = e.1.instanceId
  · subst hj
    rw [if_pos (isFrom_iff.mpr ⟨rfl, h⟩), Function.update_self]
  · rw [if_neg (fun hf => hj (isFrom_iff.mp hf).1.symm), append_nil, Function.update_of_ne hj]

/-- The loop after some of the deferred entries: the messages of the view among
them have been heard, and the local requests made. -/
structure Swept (view : VersionVector ι) (start : Manager ι α) (done : List (Stamped ι α))
    (s : Manager.Sweep ι α) : Prop where
  inView : InView view (fun j => arrivals view j done) s.manager
  reply : ∀ i, s.lastRemoteReqInstance = some i → s.lastRemoteReqTs < s.manager.ts
  kept : ∀ e ∈ s.kept, Deferrable start.selfInstanceId e ∧
    e.1.instanceId ≠ start.selfInstanceId ∧ e.2.versionVector ≠ view
  self : s.manager.selfInstanceId = start.selfInstanceId
  sent : start.sent <+: s.manager.sent
  asked : s.manager.asked = start.asked
  requested : s.manager.requested.map Prod.snd =
    start.requested.map Prod.snd ++ done.filterMap (ownMessage start.selfInstanceId)

variable {start : Manager ι α} {done : List (Stamped ι α)} {s : Manager.Sweep ι α}

section

variable (h : Swept view start done s)

include h

theorem Swept.local (t : Timestamp) (message : α) (hvv : vv.size = 0) :
    Swept view start (done ++ [(⟨t, start.selfInstanceId⟩, ⟨vv, .request message⟩)])
      (sweepStep s (⟨t, start.selfInstanceId⟩, ⟨vv, .request message⟩)) := by
  have hview := size_ne_zero h.inView.clocks.member
  have hne : vv ≠ view := by
    rintro rfl
    exact hview hvv
  have hg := Grows.stampLocalRequest (m := s.manager) view message
  have hin := h.inView.stampLocalRequest message
  have hstep : sweepStep s (⟨t, start.selfInstanceId⟩, ⟨vv, .request message⟩) =
      { s with manager := s.manager.stampLocalRequest message view } := by
    rw [sweepStep]
    rw [currentVersion, if_pos hvv, h.inView.clocks.tracker, (action_eq_deliver_iff hview).mpr rfl]
    exact if_pos h.self.symm
  rw [hstep]
  refine ⟨?_, fun i hi => (h.reply i hi).trans_le hg.ts, h.kept, hg.self.trans h.self,
    h.sent.trans hg.sent, hg.asked.trans h.asked, ?_⟩
  · have harr := arrivals_concat_of_ne (e := (⟨t, start.selfInstanceId⟩, ⟨vv, .request message⟩))
      done hne
    exact harr ▸ hin
  · rw [hg.requested, map_append, h.requested]
    simp [ownMessage]

/-- A message of another view is discarded or stays. -/
theorem Swept.foreign (hother : e.1.instanceId ≠ start.selfInstanceId)
    (hmem : Member e.2.versionVector e.1.instanceId) (hne : e.2.versionVector ≠ view) :
    Swept view start (done ++ [e]) (sweepStep s e) := by
  have hview := size_ne_zero h.inView.clocks.member
  have hsame : Swept view start (done ++ [e]) s :=
    ⟨arrivals_concat_of_ne done hne ▸ h.inView, h.reply, h.kept, h.self, h.sent, h.asked,
      filterMap_ownMessage_concat done hother ▸ h.requested⟩
  rw [sweepStep, currentVersion, if_neg (size_ne_zero hmem), h.inView.clocks.tracker]
  cases haction : (LivenessTracker.mk view true).getMsgDeliveryAction e.2.versionVector with
  | deliver => exact absurd ((action_eq_deliver_iff hview).mp haction) hne
  | discard => exact hsame
  | defer =>
    exact { hsame with
      kept := forall_mem_concat h.kept ⟨.remote e hother hmem, hother, hne⟩ }

/-- A message of the view is delivered. -/
theorem Swept.remote (hother : e.1.instanceId ≠ start.selfInstanceId)
    (hmem : Member e.2.versionVector e.1.instanceId) (heq : e.2.versionVector = view)
    (hlate : ∀ a ∈ arrivals view e.1.instanceId done, a.1.timestamp < e.1.timestamp) :
    Swept view start (done ++ [e]) (sweepStep s e) := by
  have hview := size_ne_zero h.inView.clocks.member
  have hother' : e.1.instanceId ≠ s.manager.selfInstanceId := fun hs => hother (hs.trans h.self)
  have hnext : Next view (fun j => arrivals view j done) s.manager e :=
    ⟨hother', heq ▸ hmem, heq, hlate⟩
  have hstep : sweepStep s e = Manager.deliverDeferred s e.1 view e.2.content := by
    rw [sweepStep, currentVersion, if_neg (size_ne_zero hmem),
      h.inView.clocks.tracker, heq, (action_eq_deliver_iff hview).mpr rfl]
  -- a manager that only heard the message keeps everything else
  have hswept : ∀ m' : Manager ι α, Grows s.manager m' →
      InView view (hearing (fun j => arrivals view j done) e) m' →
      Swept view start (done ++ [e]) { s with manager := m' } := fun m' hg hin =>
    ⟨arrivals_concat_eq_hearing done heq ▸ hin, fun i hi => (h.reply i hi).trans_le hg.ts, h.kept,
      hg.self.trans h.self, h.sent.trans hg.sent, hg.asked.trans h.asked,
      hg.requested ▸ filterMap_ownMessage_concat done hother ▸ h.requested⟩
  rw [hstep]
  cases hcontent : e.2.content with
  | reply reqSrc reqTs =>
    refine hswept _ ((Grows.advance _).trans (Grows.deliverRemoteReply _)) ?_
    exact h.inView.deliverRemoteReply hnext fun message hm => by rw [hcontent] at hm; cases hm
  | request message =>
    have hdel := h.inView.deliverRemoteRequest hnext hcontent false
    have hg := (Grows.advance (m := s.manager) e.1.timestamp).trans
      (Grows.deliverRemoteRequest view e.1 message false)
    have hs := hswept _ hg hdel.1
    rw [Manager.deliverDeferred]
    dsimp only
    rw [if_neg hother']
    split
    · refine { hs with reply := ?_ }
      intro i _
      exact Nat.lt_of_lt_of_le (Nat.lt_succ_of_le (le_max_right s.manager.ts e.1.timestamp))
        (Grows.deliverRemoteRequest (m := s.manager.advance e.1.timestamp) view e.1
          message false).ts
    · exact hs

theorem Swept.step (he : Deferrable start.selfInstanceId e)
    (hinc : ∀ j, (arrivals view j (done ++ [e])).Pairwise
      (fun a b => a.1.timestamp < b.1.timestamp)) :
    Swept view start (done ++ [e]) (sweepStep s e) := by
  cases he with
  | own t message hvv => exact h.local t message hvv
  | remote e hother hmem =>
    by_cases heq : e.2.versionVector = view
    · refine h.remote hother hmem heq ?_
      intro a ha
      have hj := hinc e.1.instanceId
      rw [arrivals_concat, if_pos (isFrom_iff.mpr ⟨rfl, heq⟩)] at hj
      exact (pairwise_append.mp hj).2.2 a ha e (mem_singleton_self e)
    · exact h.foreign hother hmem heq

/-- The whole loop. -/
theorem Swept.foldl (rest : List (Stamped ι α))
    (hrest : ∀ e ∈ rest, Deferrable start.selfInstanceId e)
    (hinc : ∀ j, (arrivals view j (done ++ rest)).Pairwise
      (fun a b => a.1.timestamp < b.1.timestamp)) :
    Swept view start (done ++ rest) (rest.foldl sweepStep s) := by
  induction rest generalizing done s with
  | nil =>
    rw [append_nil]
    exact h
  | cons e rest ih =>
    rw [append_cons] at hinc ⊢
    have hprefix : ∀ j, (arrivals view j (done ++ [e])).Pairwise
        (fun a b => a.1.timestamp < b.1.timestamp) := by
      intro j
      refine (hinc j).sublist (List.Sublist.filter _ ?_)
      exact sublist_append_left _ _
    exact ih (h.step (hrest e mem_cons_self) hprefix)
      (fun a ha => hrest a (mem_cons_of_mem e ha)) hinc

end

/-! ## One instance -/

/-- A manager that has not entered the view has done nothing in it. -/
structure Waiting (view : VersionVector ι) (heard : ι → List (Stamped ι α)) (m : Manager ι α) :
    Prop where
  tracker : m.livenessTracker = ⟨OrdMap.empty, false⟩
  requested : m.requested = []
  sent : m.sent = []
  released : m.released = []
  clean : m.dropped = 0
  heard_eq : heard = fun j => arrivals view j m.deferredQueue

/-- The manager of a member, before or after it enters the view. -/
structure Local (view : VersionVector ι) (heard : ι → List (Stamped ι α)) (m : Manager ι α) :
    Prop where
  member : Member view m.selfInstanceId
  deferred : ∀ e ∈ m.deferredQueue, Deferrable m.selfInstanceId e
  asked : m.requested.map Prod.snd ++ m.deferredQueue.filterMap (ownMessage m.selfInstanceId) =
    m.asked
  phase : Waiting view heard m ∨ InView view heard m ∧
    ∀ e ∈ m.deferredQueue, e.1.instanceId ≠ m.selfInstanceId ∧ e.2.versionVector ≠ view

/-- The clocks and the queue are reset before anything is heard. -/
theorem Waiting.resetClocks (h : Waiting view heard m) (hmem : Member view m.selfInstanceId) :
    InView view (fun j => arrivals view j [])
      ({ m with livenessTracker := ⟨view, true⟩ } : Manager ι α).resetClocks := by
  refine ⟨⟨rfl, hmem, fun j e he => absurd he not_mem_nil, ?_, ?_⟩, ⟨?_, ?_, ?_, ?_, ?_⟩,
    ⟨?_, ?_, Nat.zero_le _, ?_, ?_⟩, h.clean⟩
  · intro j hj
    exact (OrdMap.get_insert j).trans (if_neg hj)
  · exact ⟨m.ts, (OrdMap.get_insert _).trans (if_pos rfl), le_rfl⟩
  all_goals
    simp [Manager.resetClocks, log, h.requested, h.released, h.sent, OrdMap.empty, Sorted, arrivals]

theorem Swept.acknowledgeAll (h : Swept view start done s) :
    InView view (fun j => arrivals view j done) (Manager.acknowledgeAll s) ∧
      Grows { s.manager with deferredQueue := s.kept } (Manager.acknowledgeAll s) := by
  have hin := h.inView.frame s.manager.asked s.kept
  rw [Manager.acknowledgeAll]
  split
  · next i hi =>
      split
      · next hlt =>
          have hvv : s.manager.livenessTracker.versionVector = view := by
            rw [h.inView.clocks.tracker]
          rw [hvv]
          exact ⟨hin.broadcastReply (hlt.trans (h.reply i hi)) i _, Grows.broadcastReply _ _⟩
      · exact ⟨hin, Grows.rfl'⟩
  · exact ⟨hin, Grows.rfl'⟩

/-- Only messages of other members are heard. -/
theorem arrivals_eq_nil {l : List (Stamped ι α)} (hl : ∀ e ∈ l, Deferrable self e)
    (hview : view.size ≠ 0) (hj : ¬(Member view j ∧ j ≠ self)) : arrivals view j l = [] := by
  refine filter_eq_nil_iff.mpr ?_
  intro e he hfrom
  rcases isFrom_iff.mp hfrom with ⟨hinst, hvv⟩
  cases hl e he with
  | own t message hsize => exact hview (hvv ▸ hsize)
  | remote e hother hmem => exact hj ⟨hvv ▸ hinst ▸ hmem, hinst ▸ hother⟩

theorem Local.enterView (h : Local view heard m) (hsync : m.livenessTracker.isInSync = false)
    (hinc : ∀ j, Member view j → j ≠ m.selfInstanceId →
      (heard j).Pairwise (fun a b => a.1.timestamp < b.1.timestamp)) :
    Local view heard (m.enterView view) ∧ (m.enterView view).selfInstanceId = m.selfInstanceId ∧
      m.sent <+: (m.enterView view).sent := by
  have hwait : Waiting view heard m := by
    rcases h.phase with hw | ⟨hin, -⟩
    · exact hw
    · rw [hin.clocks.tracker] at hsync
      cases hsync
  have hview := size_ne_zero h.member
  have hstart : Swept view { m with livenessTracker := ⟨view, true⟩ } []
      ⟨({ m with livenessTracker := ⟨view, true⟩ } : Manager ι α).resetClocks, [], 0, none⟩ :=
    ⟨hwait.resetClocks h.member, fun i hi => (nomatch hi), fun e he => absurd he not_mem_nil,
      rfl, prefix_rfl, rfl, by simp [Manager.resetClocks]⟩
  have hall := hstart.foldl m.deferredQueue h.deferred (by
    intro j
    by_cases hj : Member view j ∧ j ≠ m.selfInstanceId
    · have := hinc j hj.1 hj.2
      rw [hwait.heard_eq] at this
      exact this
    · rw [nil_append, arrivals_eq_nil h.deferred hview hj]
      exact List.Pairwise.nil)
  have hack := hall.acknowledgeAll
  have heq : m.enterView view = Manager.acknowledgeAll (m.deferredQueue.foldl sweepStep
      ⟨({ m with livenessTracker := ⟨view, true⟩ } : Manager ι α).resetClocks, [], 0, none⟩) := rfl
  rw [← heq] at hack
  have hself : (m.enterView view).selfInstanceId = m.selfInstanceId := hack.2.self.trans hall.self
  refine ⟨⟨hself ▸ h.member, ?_, ?_, .inr ⟨hwait.heard_eq ▸ hack.1, ?_⟩⟩, hself,
    hall.sent.trans hack.2.sent⟩
  · intro e he
    rw [hack.2.deferred] at he
    exact hself ▸ (hall.kept e he).1
  · have hkept : (m.enterView view).deferredQueue.filterMap (ownMessage m.selfInstanceId) = [] := by
      rw [hack.2.deferred, filterMap_eq_nil_iff]
      exact fun e he => ownMessage_of_ne (hall.kept e he).2.1
    rw [hself, hkept, append_nil, hack.2.requested, hack.2.asked]
    exact hall.requested.trans (h.asked.trans hall.asked.symm)
  · intro e he
    rw [hack.2.deferred] at he
    exact hself ▸ (hall.kept e he).2

theorem Local.localRequest (h : Local view heard m) (message : α) :
    Local view heard (m.localRequest message) ∧
      (m.localRequest message).selfInstanceId = m.selfInstanceId ∧
      m.sent <+: (m.localRequest message).sent := by
  rcases h.phase with hw | ⟨hin, hdef⟩
  · have heq : m.localRequest message = { m with
        asked := m.asked ++ [message]
        deferredQueue := m.deferredQueue ++
          [(⟨0, m.selfInstanceId⟩, ⟨OrdMap.empty, .request message⟩)] } := by
      rw [Manager.localRequest, hw.tracker]
      rfl
    rw [heq]
    refine ⟨⟨h.member, ?_, ?_, .inl { hw with heard_eq := ?_ }⟩, rfl, prefix_rfl⟩
    · exact forall_mem_concat h.deferred (.own 0 message rfl)
    · rw [filterMap_append, ← append_assoc, h.asked]
      simp [ownMessage]
    · have hne : OrdMap.empty ≠ view := by
        rintro rfl
        exact size_ne_zero h.member rfl
      rw [hw.heard_eq]
      exact (arrivals_concat_of_ne m.deferredQueue hne).symm
  · have heq : m.localRequest message =
        { m with asked := m.asked ++ [message] }.stampLocalRequest message view := by
      rw [Manager.localRequest, hin.clocks.tracker]
      rw [(action_eq_deliver_iff (size_ne_zero h.member)).mpr rfl]
    have hin' := hin.frame (m.asked ++ [message]) m.deferredQueue
    have hg := Grows.stampLocalRequest (m := { m with asked := m.asked ++ [message] }) view message
    rw [heq]
    refine ⟨⟨?_, ?_, ?_, .inr ⟨hin'.stampLocalRequest message, ?_⟩⟩, hg.self, hg.sent⟩
    · rw [hg.self]
      exact h.member
    · rw [hg.deferred, hg.self]
      exact h.deferred
    · have hnil : m.deferredQueue.filterMap (ownMessage m.selfInstanceId) = [] :=
        filterMap_eq_nil_iff.mpr fun e he => ownMessage_of_ne (hdef e he).1
      have hasked := h.asked
      rw [hnil, append_nil] at hasked
      rw [hg.deferred, hg.self, hg.requested, hg.asked, hnil, map_append, hasked, append_nil]
      rfl
    · rw [hg.deferred, hg.self]
      exact hdef

/-- A message that is not delivered is deferred or discarded. -/
theorem handleMessage_of_ne_deliver
    (h : m.livenessTracker.getMsgDeliveryAction e.2.versionVector ≠ .deliver) :
    m.handleMessage e =
      if m.livenessTracker.getMsgDeliveryAction e.2.versionVector = .defer then m.deferEntry e
      else m := by
  rcases e with ⟨lts, vv, content⟩
  cases content <;> cases haction : m.livenessTracker.getMsgDeliveryAction vv <;>
    simp_all [Manager.handleMessage, Manager.remoteRequest, Manager.remoteReply]

/-- A message of the view reaches a manager that is in it. -/
theorem InView.handleMessage (h : InView view heard m) (hn : Next view heard m e) :
    InView view (hearing heard e) (m.handleMessage e) ∧ Grows m (m.handleMessage e) := by
  have haction := (action_eq_deliver_iff (size_ne_zero h.clocks.member)).mpr hn.current
  rw [← h.clocks.tracker] at haction
  rw [Manager.handleMessage]
  cases hcontent : e.2.content with
  | request message =>
    dsimp only
    rw [Manager.remoteRequest, haction, hn.current]
    exact ⟨(h.deliverRemoteRequest hn hcontent true).1,
      (Grows.advance _).trans (Grows.deliverRemoteRequest _ _ _ _)⟩
  | reply reqSrc reqTs =>
    dsimp only
    rw [Manager.remoteReply, haction]
    refine ⟨h.deliverRemoteReply hn fun message hm => ?_,
      (Grows.advance _).trans (Grows.deliverRemoteReply _)⟩
    rw [hcontent] at hm
    cases hm

variable (h : Local view heard m)

include h

/-- Deferring a message from another instance. -/
theorem Local.deferEntry (hother : e.1.instanceId ≠ m.selfInstanceId)
    (hmem : Member e.2.versionVector e.1.instanceId) {heard' : ι → List (Stamped ι α)}
    (hphase : Waiting view heard' (m.deferEntry e) ∨ InView view heard' (m.deferEntry e) ∧
      ∀ a ∈ (m.deferEntry e).deferredQueue,
        a.1.instanceId ≠ m.selfInstanceId ∧ a.2.versionVector ≠ view) :
    Local view heard' (m.deferEntry e) := by
  refine ⟨h.member, forall_mem_concat h.deferred (.remote e hother hmem), ?_, hphase⟩
  exact (filterMap_ownMessage_concat m.deferredQueue hother).symm ▸ h.asked

theorem Local.handleMessage_current (hn : Next view heard m e) :
    Local view (hearing heard e) (m.handleMessage e) ∧
      (m.handleMessage e).selfInstanceId = m.selfInstanceId ∧
      m.sent <+: (m.handleMessage e).sent := by
  rcases h.phase with hw | ⟨hin, hdef⟩
  · have haction : m.livenessTracker.getMsgDeliveryAction e.2.versionVector = .defer := by
      rw [hw.tracker]
      rfl
    rw [handleMessage_of_ne_deliver (by rw [haction]; nofun), if_pos haction]
    refine ⟨h.deferEntry hn.other (hn.current.symm ▸ hn.member) (.inl { hw with heard_eq := ?_ }),
      rfl, prefix_rfl⟩
    rw [hw.heard_eq]
    exact (arrivals_concat_eq_hearing m.deferredQueue hn.current).symm
  · rcases hin.handleMessage hn with ⟨hin', hg⟩
    refine ⟨⟨?_, ?_, ?_, .inr ⟨hin', ?_⟩⟩, hg.self, hg.sent⟩
    · rw [hg.self]
      exact h.member
    · rw [hg.deferred, hg.self]
      exact h.deferred
    · rw [hg.deferred, hg.self, hg.requested, hg.asked]
      exact h.asked
    · rw [hg.deferred, hg.self]
      exact hdef

theorem Local.handleMessage_foreign (hother : e.1.instanceId ≠ m.selfInstanceId)
    (hmem : Member e.2.versionVector e.1.instanceId) (hne : e.2.versionVector ≠ view) :
    Local view heard (m.handleMessage e) ∧
      (m.handleMessage e).selfInstanceId = m.selfInstanceId ∧
      m.sent <+: (m.handleMessage e).sent := by
  have hdefer : Local view heard (m.deferEntry e) := by
    refine h.deferEntry hother hmem ?_
    rcases h.phase with hw | ⟨hin, hdef⟩
    · refine .inl { hw with heard_eq := ?_ }
      rw [hw.heard_eq]
      exact (arrivals_concat_of_ne m.deferredQueue hne).symm
    · exact .inr ⟨hin.frame m.asked _, forall_mem_concat hdef ⟨hother, hne⟩⟩
  have haction : m.livenessTracker.getMsgDeliveryAction e.2.versionVector ≠ .deliver := by
    rcases h.phase with hw | ⟨hin, -⟩
    · rw [hw.tracker]
      nofun
    · rw [hin.clocks.tracker, ne_eq, action_eq_deliver_iff (size_ne_zero h.member)]
      exact hne
  rw [handleMessage_of_ne_deliver haction]
  split
  · exact ⟨hdefer, rfl, prefix_rfl⟩
  · exact ⟨h, rfl, prefix_rfl⟩

end SciDB.Network.OrderedBcast
