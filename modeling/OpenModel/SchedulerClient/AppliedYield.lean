import OpenModel.SchedulerClient.Listener

/-!
# A yield is applied or tried again

`_last_state` holds a yield state only after a pause for it succeeded, and a later resume
overwrites it; so a poll that receives a yield state either finds it applied or has
another state stored and tries again. While the scheduler is unreachable the fail-safe
tries at every poll until one attempt succeeds.

## Main results

- `ListenerRun.yieldInv_of_reach`, `ListenerRun.outageInv_of_reach`
- `ListenerRun.yieldKept_of_reach`: the guarantee, for every poll of every run
-/

namespace OpenModel.SchedulerClient

open Transition (System)

/-- A pause dispatched after the last resume has succeeded. -/
def Applied (ds : List Dispatch) : Prop :=
  ∃ (i : Nat) (u : Inference.YieldUrgency), ds[i]? = some ⟨.pause u, some true⟩ ∧
    ∀ (j : Nat) (d : Dispatch), i < j → ds[j]? = some d → d.command.isPause

namespace Applied

variable {ds : List Dispatch}

theorem append (h : Applied ds) {d : Dispatch} (hd : d.command.isPause) : Applied (ds ++ [d]) := by
  obtain ⟨i, u, hi, hafter⟩ := h
  have hlt : i < ds.length := (List.getElem?_eq_some_iff.mp hi).1
  refine ⟨i, u, by rw [List.getElem?_append_left hlt, hi], fun j d' hij hj => ?_⟩
  by_cases hjl : j < ds.length
  · rw [List.getElem?_append_left hjl] at hj
    exact hafter j d' hij hj
  · rw [List.getElem?_append_right (by omega)] at hj
    obtain rfl := List.mem_singleton.mp (List.mem_of_getElem? hj)
    exact hd

theorem append_succeeded {u : Inference.YieldUrgency} :
    Applied (ds ++ [⟨.pause u, some true⟩]) := by
  refine ⟨ds.length, u, by simp, fun j d hj hd => ?_⟩
  rw [List.getElem?_eq_none (by simp; omega)] at hd
  cases hd

/-- What ends was still running, and keeps its command. -/
theorem finish (h : Applied ds) {i : Nat} {d : Dispatch} {ok : Bool} (hd : ds[i]? = some d)
    (hrun : d.ended = none) : Applied (ds.set i { d with ended := some ok }) := by
  obtain ⟨k, u, hk, hafter⟩ := h
  have hne : i ≠ k := by
    rintro rfl
    rw [hd] at hk
    cases hk
    cases hrun
  refine ⟨k, u, by rw [List.getElem?_set_ne hne, hk], fun j d' hkj hj => ?_⟩
  by_cases hij : i = j
  · subst hij
    rw [List.getElem?_set_self (List.getElem?_eq_some_iff.mp hd).1] at hj
    cases hj
    exact hafter i d hkj hd
  · rw [List.getElem?_set_ne hij] at hj
    exact hafter j d' hkj hj

end Applied

/-- The fields in which the listener records an outage. -/
def Listener.outageRecord (l : Listener) : Bool × Option Nat × Bool :=
  (l.connected, l.disconnectSince, l.failsafeTriggered)

namespace Node

variable {s : Node} {state : ScheduleState} {a : Attempt} {failsafeTimeout : Nat}

/-- A yield state that is stored is applied. -/
def YieldInv (s : Node) : Prop :=
  ∀ state ∈ yieldStates, s.listener.lastState = some state → Applied s.dispatched

theorem YieldInv.applyThen (h : s.YieldInv) {store : Listener → Listener} {stored : ScheduleState}
    (hstore : ∀ l, (store l).lastState = some stored)
    (hstored : stored ∈ yieldStates → stored = state) : (s.applyThen state a store).YieldInv := by
  intro y hy hlast
  obtain ⟨hav, heq⟩ | ⟨hyield, heq⟩ | ⟨-, -, heq⟩ :=
    s.applyThen_cases state a store
  · rw [heq] at hlast
    obtain rfl := Option.some.inj ((hstore _).symm.trans hlast)
    exact absurd (hav ▸ hstored hy ▸ hy) available_not_mem_yieldStates
  · rw [heq] at hlast ⊢
    by_cases ha : a = .succeeded
    · subst ha
      exact .append_succeeded
    · rw [if_neg ha] at hlast
      exact (h y hy hlast).append rfl
  · rw [heq] at hlast ⊢
    exact h y hy hlast

theorem YieldInv.poll (h : s.YieldInv) {answer : Option ScheduleState} :
    (s.poll failsafeTimeout answer a).YieldInv := by
  cases answer with
  | none =>
    show (s.pollFailed failsafeTimeout a).YieldInv
    unfold pollFailed
    split_ifs
    · have hbase : ({ s with
          listener := { s.listener with connected := false, disconnectSince := some s.outageStart } } :
          Node).YieldInv := h
      exact hbase.applyThen (fun _ => rfl) fun _ => rfl
    · exact h
  | some state =>
    have hsettled : ({ s with listener := s.settled } : Node).YieldInv := by
      intro y hy hlast
      rcases s.lastState_settled with hs | hs
      · exact h y hy (hs ▸ hlast)
      · cases hs.symm.trans hlast
    show (s.pollAnswered state a).YieldInv
    unfold pollAnswered
    split_ifs
    · exact hsettled
    · exact hsettled.applyThen (fun _ => rfl) fun _ => rfl

/-- A failed poll is due to apply the fail-safe. -/
def FailsafeDue (failsafeTimeout : Nat) (s : Node) : Prop :=
  s.listener.failsafeTriggered = false ∧ failsafeTimeout ≤ s.now - s.outageStart

theorem pollFailed_of_due (h : s.FailsafeDue failsafeTimeout) :
    s.pollFailed failsafeTimeout a =
      { s with
        dispatched := s.dispatched ++ [⟨.pause .immediate, a.ended⟩]
        listener :=
          if a = .succeeded then
            { s.listener with
              connected := false
              disconnectSince := some s.outageStart
              failsafeTriggered := true
              lastState := some gpuStateWindowPost
              resumeFuture := none }
          else { s.listener with connected := false, disconnectSince := some s.outageStart } } :=
  (if_pos h).trans (applyThen_of_yield (by decide))

theorem pollFailed_of_not_due (h : ¬ s.FailsafeDue failsafeTimeout) :
    s.pollFailed failsafeTimeout a =
      { s with
        listener := { s.listener with connected := false, disconnectSince := some s.outageStart } } :=
  if_neg h

/-- A failed poll marks the outage, and the fail-safe once its pause succeeded. -/
theorem pollFailed_outageRecord (s : Node) (failsafeTimeout : Nat) (a : Attempt) :
    (s.pollFailed failsafeTimeout a).listener.outageRecord =
      (false, some s.outageStart, s.listener.failsafeTriggered ||
        (s.attempts (s.pollFailed failsafeTimeout a) && a == .succeeded)) := by
  by_cases h : s.FailsafeDue failsafeTimeout
  · by_cases ha : a = .succeeded <;>
      simp [pollFailed_of_due h, Listener.outageRecord, attempts, EngineCommand.isPause, ha]
  · simp [pollFailed_of_not_due h, Listener.outageRecord, attempts]

theorem attempts_pollFailed :
    s.attempts (s.pollFailed failsafeTimeout a) ↔ s.FailsafeDue failsafeTimeout := by
  by_cases h : s.FailsafeDue failsafeTimeout
  · simp [attempts, pollFailed_of_due h, EngineCommand.isPause, h]
  · simp [attempts, pollFailed_of_not_due h, h]

/-- An answered poll writes the record of the outage only when it reconnects. -/
theorem pollAnswered_outageRecord (s : Node) (state : ScheduleState) (a : Attempt) :
    (s.pollAnswered state a).listener.outageRecord = (reconnect s.listener).outageRecord := by
  have hsettled : s.settled.outageRecord = (reconnect s.listener).outageRecord := by
    unfold settled noticeResume
    split <;> rfl
  unfold pollAnswered
  split_ifs
  · exact hsettled
  · obtain ⟨-, heq⟩ | ⟨-, heq⟩ | ⟨-, -, heq⟩ :=
      applyThen_cases { s with listener := s.settled } state a
        fun l => { l with lastState := some state }
    · exact (congrArg (·.listener.outageRecord) heq).trans hsettled
    · rw [heq]
      by_cases ha : a = .succeeded
      · rw [if_pos ha]
        exact hsettled
      · rw [if_neg ha]
        exact hsettled
    · exact (congrArg (·.listener.outageRecord) heq).trans hsettled

/-- A poll that receives `state` will not find it stored: another state is, or the
fail-safe's own record, which reconnecting clears. -/
def RetryPending (state : ScheduleState) (s : Node) : Prop :=
  s.listener.lastState ≠ some state ∨
    s.listener.connected = false ∧ s.listener.failsafeTriggered = true

theorem RetryPending.settled_ne (h : s.RetryPending state) : s.settled.lastState ≠ some state := by
  obtain hne | ⟨hconn, htrig⟩ := h
  · rcases s.lastState_settled with hs | hs
    · rwa [hs]
    · simp [hs]
  · have hnone : (reconnect s.listener).lastState = none := by simp [reconnect, hconn, htrig]
    rcases s.noticeResume_lastState (reconnect s.listener) with hs | hs
    · simp [settled, hs, hnone]
    · simp [settled, hs]

/-- The next poll that receives a yield state which is not stored attempts a pause. -/
theorem RetryPending.attempts (h : s.RetryPending state) (hy : state ∈ yieldStates) :
    s.attempts (s.poll failsafeTimeout (some state) a) := by
  have hne : ¬ some state = s.settled.lastState := fun heq => h.settled_ne heq.symm
  show s.attempts (s.pollAnswered state a)
  simp only [pollAnswered, hne, if_false, applyThen_of_yield hy]
  simp [Node.attempts, EngineCommand.isPause]

theorem RetryPending.pollFailed (h : s.RetryPending state) :
    (s.pollFailed failsafeTimeout a).RetryPending state := by
  have hrest : ∀ l : Listener, l = { s.listener with
      connected := false, disconnectSince := some s.outageStart } →
        l.lastState ≠ some state ∨ l.connected = false ∧ l.failsafeTriggered = true := by
    rintro l rfl
    exact h.imp_right fun hfail => ⟨rfl, hfail.2⟩
  by_cases hdue : s.FailsafeDue failsafeTimeout
  · rw [pollFailed_of_due hdue]
    by_cases ha : a = .succeeded
    · exact .inr (by simp [ha])
    · exact hrest _ (if_neg ha)
  · rw [pollFailed_of_not_due hdue]
    exact hrest _ rfl

theorem RetryPending.pollAnswered (h : s.RetryPending state) {other : ScheduleState}
    (hother : other ≠ state) : (s.pollAnswered other a).RetryPending state := by
  have hne := h.settled_ne
  unfold Node.pollAnswered
  split_ifs
  · exact .inl hne
  · obtain ⟨-, heq⟩ | ⟨-, heq⟩ | ⟨-, -, heq⟩ :=
      applyThen_cases { s with listener := s.settled } other a
        fun l => { l with lastState := some other }
    · rw [heq]
      exact .inl (by simpa using hother)
    · rw [heq]
      by_cases ha : a = .succeeded
      · exact .inl (by simpa [ha] using hother)
      · exact .inl (by simpa [ha] using hne)
    · rw [heq]
      exact .inl hne

end Node

namespace ListenerRun

variable {s t : ListenerRun} {l : ListenerLabel} {failsafeTimeout : Nat}

/-- **Run lemma**: a stored yield is applied. -/
theorem yieldInv_of_reach {ok : ListenerRun → ListenerLabel → Prop}
    (h : (system failsafeTimeout).Reach ok s) : s.node.YieldInv := by
  refine h.invariant (I := fun s => s.node.YieldInv) ?_ fun s l t hs _ hstep => ?_
  · rintro s rfl y - hlast
    cases hlast
  · cases l with
    | elapse ms =>
      cases hstep
      exact hs
    | finish i ended =>
      have hfinish : s.step failsafeTimeout (.finish i ended) = some t := hstep
      obtain ⟨d, hd, hrun, rfl⟩ := finish_eq_some.mp hfinish
      exact fun y hy hlast => (hs y hy hlast).finish hd hrun
    | poll answer a =>
      cases hstep
      exact hs.poll

/-- The fields in which a listener in this outage records it. -/
def recordOf : Option (Nat × Bool) → Bool × Option Nat × Bool
  | none => (true, none, false)
  | some (since, paused) => (false, some since, paused)

/-- The listener's own record of the outage is right. -/
def OutageInv (s : ListenerRun) : Prop := s.node.listener.outageRecord = recordOf s.outage

theorem OutageInv.since_eq (h : s.OutageInv) :
    s.node.outageStart = (s.outage.getD (s.node.now, false)).1 := by
  have hsince := congrArg (·.2.1) h
  cases ho : s.outage <;> simp_all [Node.outageStart, Listener.outageRecord, recordOf]

theorem OutageInv.paused_eq (h : s.OutageInv) :
    s.node.listener.failsafeTriggered = (s.outage.getD (s.node.now, false)).2 := by
  have hpaused := congrArg (·.2.2) h
  cases ho : s.outage <;> simp_all [Listener.outageRecord, recordOf]

theorem OutageInv.pollFailed (h : s.OutageInv) {a : Attempt} :
    (s.poll failsafeTimeout none a).OutageInv := by
  have hrecord := s.node.pollFailed_outageRecord failsafeTimeout a
  rw [h.since_eq, h.paused_eq] at hrecord
  exact hrecord

theorem OutageInv.pollAnswered (h : s.OutageInv) {state : ScheduleState} {a : Attempt} :
    (s.poll failsafeTimeout (some state) a).OutageInv := by
  have hreconnect : (Node.reconnect s.node.listener).outageRecord = (true, none, false) := by
    have hrecord : s.node.listener.outageRecord = _ := h
    cases ho : s.outage <;> simp_all [Node.reconnect, Listener.outageRecord, recordOf]
  exact (s.node.pollAnswered_outageRecord state a).trans hreconnect

theorem OutageInv.poll (h : s.OutageInv) {answer : Option ScheduleState} {a : Attempt} :
    (s.poll failsafeTimeout answer a).OutageInv := by
  cases answer with
  | none => exact h.pollFailed
  | some state => exact h.pollAnswered

/-- **Run lemma**: the record of the outage is right in every reachable state. -/
theorem outageInv_of_reach {ok : ListenerRun → ListenerLabel → Prop}
    (h : (system failsafeTimeout).Reach ok s) : s.OutageInv := by
  refine h.invariant (I := OutageInv) ?_ fun s l t hs _ hstep => ?_
  · rintro s rfl
    rfl
  · cases l with
    | elapse ms =>
      cases hstep
      exact hs
    | finish i ended =>
      have hfinish : s.step failsafeTimeout (.finish i ended) = some t := hstep
      obtain ⟨d, hd, hrun, rfl⟩ := finish_eq_some.mp hfinish
      exact hs
    | poll answer a =>
      cases hstep
      exact hs.poll

/-- A run without a poll that receives `state` keeps its retry pending. -/
theorem retryPending_of_exec {state : ScheduleState} {ls : List ListenerLabel}
    (h : s.node.RetryPending state) (hls : ∀ a, .poll (some state) a ∉ ls)
    (hexec : (system failsafeTimeout).exec s ls = some t) : t.node.RetryPending state := by
  induction ls generalizing s with
  | nil =>
    cases hexec
    exact h
  | cons l ls ih =>
    obtain ⟨u, hu, hrest⟩ := Option.bind_eq_some_iff.mp hexec
    refine ih ?_ (fun a ha => hls a (List.mem_cons_of_mem _ ha)) hrest
    cases l with
    | elapse ms =>
      cases hu
      exact h
    | finish i ended =>
      have hfinish : s.step failsafeTimeout (.finish i ended) = some u := hu
      obtain ⟨d, hd, hrun, rfl⟩ := finish_eq_some.mp hfinish
      exact h
    | poll answer a =>
      cases hu
      cases answer with
      | none => exact h.pollFailed
      | some other =>
        refine h.pollAnswered ?_
        rintro rfl
        exact hls a List.mem_cons_self

/-- **Yields are kept**: after every poll that receives a yield state, a pause dispatched
after the last resume has succeeded, or the state is not stored and the next poll that
receives it, whatever happens in between, pauses again. In an outage that has lasted for
the fail-safe timeout every poll attempts a pause until one succeeded. -/
theorem yieldKept_of_reach {answer : Option ScheduleState} {a : Attempt}
    (h : (system failsafeTimeout).Reach System.anyStep s)
    (hstep : (system failsafeTimeout).step s (.poll answer a) = some t) :
    (∀ state ∈ yieldStates, answer = some state →
      Applied t.node.dispatched ∨
        t.node.listener.lastState ≠ some state ∧
          ∀ ls u, (∀ a', .poll (some state) a' ∉ ls) → (system failsafeTimeout).exec t ls = some u →
            ∀ a', u.node.attempts (u.node.poll failsafeTimeout (some state) a')) ∧
    (∀ since paused, answer = none → t.outage = some (since, paused) →
      failsafeTimeout ≤ s.node.now - since → (s.outage.map Prod.snd).getD false = false →
        s.node.attempts t.node) := by
  cases hstep
  constructor
  · rintro state hy rfl
    by_cases hlast : (s.poll failsafeTimeout (some state) a).node.listener.lastState = some state
    · exact .inl ((yieldInv_of_reach h).poll state hy hlast)
    · refine .inr ⟨hlast, fun ls u hls hexec a' => ?_⟩
      exact (retryPending_of_exec (.inl hlast) hls hexec).attempts hy
  · rintro since paused rfl hout hlong hnot
    have hinv := outageInv_of_reach h
    have hsince : s.node.outageStart = since :=
      hinv.since_eq.trans (congrArg Prod.fst (Option.some.inj hout))
    have htrig : s.node.listener.failsafeTriggered = false := by
      rw [hinv.paused_eq]
      cases ho : s.outage <;> simp_all
    exact Node.attempts_pollFailed.mpr ⟨htrig, by rwa [hsince]⟩

/-- A pause that timed out is not applied, and the next poll pauses again. -/
theorem yieldKept_timedOut :
    let t := ({} : ListenerRun).poll 60000 (some gpuStateWinningPost) .timedOut
    ¬ Applied t.node.dispatched ∧
      t.node.attempts (t.node.poll 60000 (some gpuStateWinningPost) .succeeded) := by
  intro t
  have hstep : (system 60000).step {} (.poll (some gpuStateWinningPost) .timedOut) = some t := rfl
  have hnot : ¬ Applied t.node.dispatched := by
    rintro ⟨i, u, hi, -⟩
    have hmem := List.mem_of_getElem? hi
    have heq := List.mem_singleton.mp hmem
    cases heq
  obtain happ | ⟨-, hnext⟩ := (yieldKept_of_reach (.init rfl) hstep).1 _ (by decide) rfl
  · exact absurd happ hnot
  · exact ⟨hnot, hnext [] t (by simp) rfl .succeeded⟩

end ListenerRun

end OpenModel.SchedulerClient
