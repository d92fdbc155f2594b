import OpenModel.SchedulerClient.AppliedYield

/-!
# What the engine was last told

`_last_state` is what the listener last applied, not what the engine was last told: a pause
that raises or times out is not stored, though it may have paused engines or pause them
later. When the scheduler is then AVAILABLE again and `_last_state` still says so, the poll
sees no change and dispatches nothing.

## Main results

- `ListenerRun.told_of_reach`: with AVAILABLE stored, the last command is a resume
  exactly when no pause attempt failed since
- `ListenerRun.resumed_iff`: the AVAILABLE polls that leave a pause as the last command
-/

namespace OpenModel.SchedulerClient

open Transition (System)

/-- The most recent engine command. -/
def lastCommand (ds : List Dispatch) : Option EngineCommand := (ds.map Dispatch.command).getLast?

theorem lastCommand_append {ds : List Dispatch} {d : Dispatch} :
    lastCommand (ds ++ [d]) = some d.command := by
  simp [lastCommand]

theorem lastCommand_set {ds : List Dispatch} {i : Nat} {d : Dispatch} {ended : Option Bool}
    (hd : ds[i]? = some d) : lastCommand (ds.set i { d with ended }) = lastCommand ds := by
  have hmap : (ds.map Dispatch.command)[i]? = some d.command := by
    rw [List.getElem?_map, hd]
    rfl
  obtain ⟨hlt, hget⟩ := List.getElem?_eq_some_iff.mp hmap
  unfold lastCommand
  rw [List.map_set, ← hget, List.set_getElem_self]

namespace Node

variable {s : Node} {a : Attempt} {failsafeTimeout : Nat}

/-- The background resume has ended with an exception. -/
def ResumeFailed (s : Node) : Prop :=
  (s.listener.resumeFuture.bind (s.dispatched[·]?)).bind Dispatch.ended = some false

theorem reconnect_resumeFuture (l : Listener) : (reconnect l).resumeFuture = l.resumeFuture := by
  unfold reconnect
  split <;> rfl

/-- A stored AVAILABLE survives until the comparison exactly when its resume has not failed. -/
theorem settled_available_iff (hlast : s.listener.lastState = some gpuStateAvailable)
    (htrig : s.listener.failsafeTriggered = false) :
    s.settled.lastState = some gpuStateAvailable ↔ ¬ s.ResumeFailed := by
  have hreconnect : (reconnect s.listener).lastState = some gpuStateAvailable := by
    unfold reconnect
    split
    · exact hlast
    · simp [htrig, hlast]
  unfold settled noticeResume ResumeFailed
  rw [reconnect_resumeFuture]
  split
  · next hnone => simp [hreconnect, hnone]
  · next ended hended => cases ended <;> simp [hreconnect, hended]

/-- What `_last_state` says of the last command; `failed` says whether that command is a
pause that failed. -/
structure Told (failed : Bool) (s : Node) : Prop where
  available : s.listener.lastState = some gpuStateAvailable →
    (lastCommand s.dispatched = some .resume ↔ failed = false)
  failsafe : s.listener.failsafeTriggered = true →
    s.listener.connected = false ∧ s.listener.lastState = some gpuStateWindowPost

theorem Told.applyThen {failed : Bool} (h : s.Told failed) {state : ScheduleState}
    {store : Listener → Listener} (hlast : ∀ l, (store l).lastState = some state)
    (hfailsafe : ∀ l, l.outageRecord = s.listener.outageRecord →
      (store l).failsafeTriggered = true →
        (store l).connected = false ∧ state = gpuStateWindowPost) :
    (s.applyThen state a store).Told
      (if (s.applyThen state a store).dispatched = s.dispatched then failed
        else s.attempts (s.applyThen state a store) && a != .succeeded) := by
  obtain ⟨rfl, heq⟩ | ⟨hy, heq⟩ | ⟨-, -, heq⟩ := s.applyThen_cases state a store
  · rw [heq]
    constructor
    · intro _
      simp [lastCommand_append, attempts, EngineCommand.isPause]
    · intro htrig
      obtain ⟨-, habs⟩ :=
        hfailsafe { s.listener with resumeFuture := some s.dispatched.length } rfl htrig
      cases habs
  · rw [heq]
    by_cases ha : a = .succeeded
    · rw [if_pos ha]
      constructor
      · intro hav
        obtain rfl := Option.some.inj ((hlast _).symm.trans hav)
        exact absurd hy available_not_mem_yieldStates
      · intro htrig
        obtain ⟨hconn, rfl⟩ := hfailsafe { s.listener with resumeFuture := none } rfl htrig
        exact ⟨hconn, hlast _⟩
    · rw [if_neg ha]
      constructor
      · intro _
        simp [lastCommand_append, attempts, EngineCommand.isPause, ha]
      · exact h.failsafe
  · rw [heq, if_pos rfl]
    exact h

theorem Told.settled {failed : Bool} (h : s.Told failed) :
    ({ s with listener := s.settled } : Node).Told failed ∧ s.settled.failsafeTriggered = false := by
  have htrig : s.settled.failsafeTriggered = false := by
    have hreconnect : (reconnect s.listener).failsafeTriggered = false := by
      unfold reconnect
      split
      · next hconn =>
        refine Bool.eq_false_iff.mpr fun htrig => ?_
        cases hconn.symm.trans (h.failsafe htrig).1
      · rfl
    unfold Node.settled noticeResume
    split <;> exact hreconnect
  refine ⟨⟨fun hav => ?_, fun hfs => ?_⟩, htrig⟩
  · rcases s.lastState_settled with hs | hs
    · exact h.available (hs ▸ hav)
    · cases hs.symm.trans hav
  · cases htrig.symm.trans hfs

end Node

namespace ListenerRun

variable {s t : ListenerRun} {a : Attempt} {failsafeTimeout : Nat}

theorem told_poll (h : s.node.Told s.failed) {answer : Option ScheduleState} :
    (s.poll failsafeTimeout answer a).node.Told (s.poll failsafeTimeout answer a).failed := by
  cases answer with
  | none =>
    have hbase : ({ s.node with listener := { s.node.listener with
        connected := false, disconnectSince := some s.node.outageStart } } : Node).Told s.failed :=
      ⟨h.available, fun htrig => ⟨rfl, (h.failsafe htrig).2⟩⟩
    show (s.node.pollFailed failsafeTimeout a).Told
      (if (s.node.pollFailed failsafeTimeout a).dispatched = s.node.dispatched then s.failed
        else s.node.attempts (s.node.pollFailed failsafeTimeout a) && a != .succeeded)
    by_cases hdue : s.node.FailsafeDue failsafeTimeout
    · have heq : s.node.pollFailed failsafeTimeout a = _ := if_pos hdue
      rw [heq]
      exact hbase.applyThen (fun _ => rfl) fun l hl _ => ⟨congrArg (·.1) hl, rfl⟩
    · rw [Node.pollFailed_of_not_due hdue, if_pos rfl]
      exact hbase
  | some state =>
    obtain ⟨hbase, htrig⟩ := h.settled
    show (s.node.pollAnswered state a).Told
      (if (s.node.pollAnswered state a).dispatched = s.node.dispatched then s.failed
        else s.node.attempts (s.node.pollAnswered state a) && a != .succeeded)
    by_cases hsame : some state = s.node.settled.lastState
    · have heq : s.node.pollAnswered state a = _ := if_pos hsame
      rw [heq, if_pos rfl]
      exact hbase
    · have heq : s.node.pollAnswered state a = _ := if_neg hsame
      rw [heq]
      refine hbase.applyThen (fun _ => rfl) fun l hl hfs => ?_
      have hrecord : l.failsafeTriggered = s.node.settled.failsafeTriggered := congrArg (·.2.2) hl
      cases (hrecord.trans htrig).symm.trans hfs

/-- **Run lemma**: with AVAILABLE stored, the last command is a resume unless it is a
pause that failed. -/
theorem told_of_reach {ok : ListenerRun → ListenerLabel → Prop}
    (h : (system failsafeTimeout).Reach ok s) : s.node.Told s.failed := by
  refine h.invariant (I := fun s => s.node.Told s.failed) ?_ fun s l t hs _ hstep => ?_
  · rintro s rfl
    exact ⟨fun hav => (by cases hav), fun htrig => (by cases htrig)⟩
  · cases l with
    | elapse ms =>
      cases hstep
      exact ⟨hs.available, hs.failsafe⟩
    | finish i ended =>
      have hfinish : s.step failsafeTimeout (.finish i ended) = some t := hstep
      obtain ⟨d, hd, -, rfl⟩ := finish_eq_some.mp hfinish
      refine ⟨fun hav => ?_, hs.failsafe⟩
      show lastCommand (s.node.dispatched.set i { d with ended := some ended }) = _ ↔ _
      rw [lastCommand_set hd]
      exact hs.available hav
    | poll answer a =>
      cases hstep
      exact told_poll hs

/-- AVAILABLE is stored, its resume has not failed, and the last command is a pause that
raised or timed out: nothing makes the listener apply AVAILABLE again. -/
def Forgotten (s : ListenerRun) : Prop :=
  s.failed = true ∧ s.node.listener.lastState = some gpuStateAvailable ∧ ¬ s.node.ResumeFailed

/-- **AVAILABLE resumes** the engine in exactly the polls that do not find a failed pause
forgotten. -/
theorem resumed_iff (h : (system failsafeTimeout).Reach System.anyStep s) :
    lastCommand (s.poll failsafeTimeout (some gpuStateAvailable) a).node.dispatched =
        some .resume ↔ ¬ s.Forgotten := by
  have htold := told_of_reach h
  have htrig (hlast : s.node.listener.lastState = some gpuStateAvailable) :
      s.node.listener.failsafeTriggered = false := by
    refine Bool.eq_false_iff.mpr fun htrig => ?_
    cases hlast.symm.trans (htold.failsafe htrig).2
  by_cases hsame : some gpuStateAvailable = s.node.settled.lastState
  · have heq : s.node.pollAnswered gpuStateAvailable a = _ := if_pos hsame
    have hlast : s.node.listener.lastState = some gpuStateAvailable := by
      rcases s.node.lastState_settled with hs | hs
      · exact hs.symm.trans hsame.symm
      · cases hsame.trans hs
    have hok := (Node.settled_available_iff hlast (htrig hlast)).mp hsame.symm
    show lastCommand (s.node.pollAnswered gpuStateAvailable a).dispatched = _ ↔ _
    rw [heq]
    simp [htold.available hlast, Forgotten, hlast, hok]
  · have heq : s.node.pollAnswered gpuStateAvailable a = _ := if_neg hsame
    show lastCommand (s.node.pollAnswered gpuStateAvailable a).dispatched = _ ↔ _
    rw [heq]
    have hnot : ¬ s.Forgotten := fun ⟨_, hlast, hresume⟩ =>
      hsame ((Node.settled_available_iff hlast (htrig hlast)).mpr hresume).symm
    simp [Node.applyThen, Node.applyState, lastCommand_append, hnot]

/-- The pause of the witness timed out, and AVAILABLE came back. -/
theorem resumed_secondResume :
    let s := ({} : ListenerRun).poll 60000 (some gpuStateYielding) .timedOut
    lastCommand (s.poll 60000 (some gpuStateAvailable) .succeeded).node.dispatched =
      some .resume := by
  intro s
  have hreach : (system 60000).Reach System.anyStep s :=
    .step (l := .poll (some gpuStateYielding) .timedOut) (.init rfl) trivial rfl
  refine (resumed_iff hreach).mpr fun hforgotten => ?_
  cases hforgotten.2.1

/-- A pause that raises between two AVAILABLE polls stays the last command. -/
theorem raisedPause_not_resumed :
    ¬ ∀ s, (system 60000).Reach System.anyStep s →
      ∀ a, lastCommand (s.poll 60000 (some gpuStateAvailable) a).node.dispatched =
        some .resume := by
  intro h
  have hexec : (system 60000).exec {} [.poll (some gpuStateAvailable) .succeeded,
      .poll (some gpuStateYielding) .raised] =
    some ((({} : ListenerRun).poll 60000 (some gpuStateAvailable) .succeeded).poll 60000
      (some gpuStateYielding) .raised) := rfl
  exact absurd (h _ (System.reach_of_exec rfl hexec) .succeeded) (by decide)

end ListenerRun

end OpenModel.SchedulerClient
