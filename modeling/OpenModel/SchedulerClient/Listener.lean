import OpenModel.Inference.Engine

/-!
# The scheduler listener

`SchedulerListener` polls the scheduler and turns the GPU state it hears of into `pause`
and `resume` calls on the engine. A resume is only dispatched; a pause is dispatched and
waited for, and it succeeds, raises, or is still running when the wait times out. What was
dispatched can end at any later time.

A poll is one step: nothing else writes the listener's fields, and a resume that ends
during a poll is noticed by the next one.

## Main results

- `Node.applyThen_cases`: what applying a state dispatches
- `Node.lastState_settled`: what a poll makes of `_last_state` before it compares
-/

namespace OpenModel.SchedulerClient

open Inference (YieldUrgency)

-- ════════════════════════════════════════════════════════════════════════
-- States, commands and fields
-- ════════════════════════════════════════════════════════════════════════

/-- A `GpuState` as it comes in a protobuf message: any integer. -/
abbrev ScheduleState := Int

def gpuStateAvailable : ScheduleState := 1

def gpuStateYielding : ScheduleState := 2

def gpuStateWindowPost : ScheduleState := 3

def gpuStateWinningPost : ScheduleState := 4

def yieldStates : List ScheduleState := [gpuStateYielding, gpuStateWindowPost, gpuStateWinningPost]

inductive EngineCommand
  | pause (urgency : YieldUrgency)
  | resume
  deriving DecidableEq, Repr

def EngineCommand.isPause : EngineCommand → Bool
  | pause _ => true
  | resume => false

/-- A coroutine handed to the main loop; `ended` says whether it ended without an
exception, once it has ended. -/
structure Dispatch where
  command : EngineCommand
  ended : Option Bool := none
  deriving DecidableEq, Repr

/-- The fields of `SchedulerListener` that a poll writes. -/
structure Listener where
  lastState : Option ScheduleState := none
  connected : Bool := true
  disconnectSince : Option Nat := none
  failsafeTriggered : Bool := false
  /-- the dispatch whose future `_resume_future` is -/
  resumeFuture : Option Nat := none
  deriving DecidableEq, Repr

/-- How waiting for a pause went. -/
inductive Attempt
  | succeeded
  | raised
  | timedOut
  deriving DecidableEq, Repr

def Attempt.ended : Attempt → Option Bool
  | succeeded => some true
  | raised => some false
  | timedOut => none

/-- The listener, what it has dispatched, and the monotonic clock. -/
structure Node where
  listener : Listener := {}
  dispatched : List Dispatch := []
  now : Nat := 0
  deriving DecidableEq, Repr

namespace Node

-- ════════════════════════════════════════════════════════════════════════
-- `_apply_state` and `_poll`
-- ════════════════════════════════════════════════════════════════════════

/-- The urgency of a pause for this state. -/
def urgency (state : ScheduleState) : YieldUrgency :=
  if state = gpuStateYielding then .normal else .immediate

/-- `_apply_state`, given how a pause would go. -/
def applyState (s : Node) (state : ScheduleState) (a : Attempt) : Bool × Node :=
  if state = gpuStateAvailable then
    (true, { s with
      dispatched := s.dispatched ++ [{ command := .resume }]
      listener := { s.listener with resumeFuture := some s.dispatched.length } })
  else if state ∈ yieldStates then
    let s := { s with dispatched := s.dispatched ++ [⟨.pause (urgency state), a.ended⟩] }
    if a = .succeeded then (true, { s with listener := { s.listener with resumeFuture := none } })
    else (false, s)
  else (false, s)

/-- `_apply_state`, and what its caller stores when it returns true. -/
def applyThen (s : Node) (state : ScheduleState) (a : Attempt) (store : Listener → Listener) :
    Node :=
  if (s.applyState state a).1 then
    { (s.applyState state a).2 with listener := store (s.applyState state a).2.listener }
  else (s.applyState state a).2

/-- The end of an outage. -/
def reconnect (l : Listener) : Listener :=
  if l.connected then l
  else
    { l with
      connected := true
      disconnectSince := none
      failsafeTriggered := false
      lastState := if l.failsafeTriggered then none else l.lastState }

/-- Look at the background resume: one that failed is to be repeated. -/
def noticeResume (s : Node) (l : Listener) : Listener :=
  match (l.resumeFuture.bind (s.dispatched[·]?)).bind Dispatch.ended with
  | none => l
  | some ok =>
    { l with
      resumeFuture := none
      lastState := if ok = false ∧ l.lastState = some gpuStateAvailable then none else l.lastState }

/-- The listener just before it compares the scheduler's state with `_last_state`. -/
def settled (s : Node) : Listener := s.noticeResume (reconnect s.listener)

/-- The time of the first failure of this outage. -/
def outageStart (s : Node) : Nat := s.listener.disconnectSince.getD s.now

/-- A poll whose RPC fails. -/
def pollFailed (failsafeTimeout : Nat) (s : Node) (a : Attempt) : Node :=
  let s' := { s with
    listener := { s.listener with connected := false, disconnectSince := some s.outageStart } }
  if s.listener.failsafeTriggered = false ∧ failsafeTimeout ≤ s.now - s.outageStart then
    s'.applyThen gpuStateWindowPost a fun l =>
      { l with failsafeTriggered := true, lastState := some gpuStateWindowPost }
  else s'

/-- A poll that receives `state`. -/
def pollAnswered (s : Node) (state : ScheduleState) (a : Attempt) : Node :=
  let s' := { s with listener := s.settled }
  if some state = s.settled.lastState then s'
  else s'.applyThen state a fun l => { l with lastState := some state }

def poll (failsafeTimeout : Nat) (s : Node) (answer : Option ScheduleState) (a : Attempt) : Node :=
  match answer with
  | none => s.pollFailed failsafeTimeout a
  | some state => s.pollAnswered state a

theorem available_not_mem_yieldStates : gpuStateAvailable ∉ yieldStates := by decide

/-- **What applying a state dispatches**: a resume, a pause, or nothing. -/
theorem applyThen_cases (s : Node) (state : ScheduleState) (a : Attempt)
    (store : Listener → Listener) :
    (state = gpuStateAvailable ∧ s.applyThen state a store =
      { s with
        dispatched := s.dispatched ++ [{ command := .resume }]
        listener := store { s.listener with resumeFuture := some s.dispatched.length } }) ∨
    (state ∈ yieldStates ∧ s.applyThen state a store =
      { s with
        dispatched := s.dispatched ++ [⟨.pause (urgency state), a.ended⟩]
        listener :=
          if a = .succeeded then store { s.listener with resumeFuture := none } else s.listener }) ∨
    (state ≠ gpuStateAvailable ∧ state ∉ yieldStates ∧ s.applyThen state a store = s) := by
  by_cases hav : state = gpuStateAvailable
  · exact .inl ⟨hav, by simp [applyThen, applyState, hav]⟩
  · by_cases hy : state ∈ yieldStates
    · refine .inr (.inl ⟨hy, ?_⟩)
      by_cases ha : a = .succeeded <;> simp [applyThen, applyState, hav, hy, ha]
    · exact .inr (.inr ⟨hav, hy, by simp [applyThen, applyState, hav, hy]⟩)

variable {s : Node} {state : ScheduleState} {a : Attempt} {store : Listener → Listener}

/-- Applying a yield state attempts a pause. -/
theorem applyThen_of_yield (h : state ∈ yieldStates) :
    s.applyThen state a store =
      { s with
        dispatched := s.dispatched ++ [⟨.pause (urgency state), a.ended⟩]
        listener :=
          if a = .succeeded then store { s.listener with resumeFuture := none } else s.listener } := by
  obtain ⟨rfl, -⟩ | ⟨-, heq⟩ | ⟨-, hnot, -⟩ := s.applyThen_cases state a store
  · exact absurd h available_not_mem_yieldStates
  · exact heq
  · exact absurd h hnot

theorem reconnect_lastState (l : Listener) :
    (reconnect l).lastState = l.lastState ∨ (reconnect l).lastState = none := by
  unfold reconnect
  split
  · exact .inl rfl
  · by_cases hf : l.failsafeTriggered <;> simp [hf]

theorem noticeResume_lastState (l : Listener) :
    (s.noticeResume l).lastState = l.lastState ∨ (s.noticeResume l).lastState = none := by
  unfold noticeResume
  split
  · exact .inl rfl
  · split
    · exact .inr rfl
    · exact .inl rfl

/-- **Before the comparison** a poll leaves `_last_state` or clears it. -/
theorem lastState_settled : s.settled.lastState = s.listener.lastState ∨ s.settled.lastState = none := by
  rcases noticeResume_lastState (s := s) (reconnect s.listener) with h | h
  · exact (reconnect_lastState s.listener).imp (h.trans ·) (h.trans ·)
  · exact .inr h

end Node

-- ════════════════════════════════════════════════════════════════════════
-- Runs
-- ════════════════════════════════════════════════════════════════════════

inductive ListenerLabel
  | elapse (ms : Nat)
  /-- a dispatched coroutine that was still running ends -/
  | finish (i : Nat) (ok : Bool)
  /-- a poll that fails or receives a state; `a` is how a pause would go -/
  | poll (answer : Option ScheduleState) (a : Attempt)
  deriving DecidableEq, Repr

/-- The listener in a run, with what happened to it. -/
structure ListenerRun where
  node : Node := {}
  /-- the time of the first failed poll since the last answered one, and whether a pause
  attempted since then succeeded -/
  outage : Option (Nat × Bool) := none
  /-- a pause attempt raised or timed out since `_last_state` was last stored -/
  failed : Bool := false
  deriving DecidableEq, Repr

/-- A poll that took `s` to `t` attempted a pause. -/
def Node.attempts (s t : Node) : Bool :=
  (t.dispatched.drop s.dispatched.length).any (·.command.isPause)

namespace ListenerRun

/-- A poll, with what happens in it. -/
def poll (failsafeTimeout : Nat) (s : ListenerRun) (answer : Option ScheduleState) (a : Attempt) :
    ListenerRun :=
  let node := s.node.poll failsafeTimeout answer a
  { node
    outage :=
      match answer with
      | some _ => none
      | none =>
        let (since, paused) := s.outage.getD (s.node.now, false)
        some (since, paused || (s.node.attempts node && a == .succeeded))
    failed :=
      if node.dispatched = s.node.dispatched then s.failed
      else s.node.attempts node && a != .succeeded }

def step (failsafeTimeout : Nat) (s : ListenerRun) : ListenerLabel → Option ListenerRun
  | .elapse ms => some { s with node := { s.node with now := s.node.now + ms } }
  | .finish i ok =>
    s.node.dispatched[i]?.bind fun d =>
      if d.ended = none then
        some { s with
          node := { s.node with dispatched := s.node.dispatched.set i { d with ended := some ok } } }
      else none
  | .poll answer a => some (s.poll failsafeTimeout answer a)

def system (failsafeTimeout : Nat) : Transition.System ListenerRun ListenerLabel where
  init s := s = {}
  step := step failsafeTimeout

theorem finish_eq_some {failsafeTimeout : Nat} {s t : ListenerRun} {i : Nat} {ok : Bool} :
    s.step failsafeTimeout (.finish i ok) = some t ↔
      ∃ d, s.node.dispatched[i]? = some d ∧ d.ended = none ∧
        { s with
          node := { s.node with dispatched := s.node.dispatched.set i { d with ended := some ok } } } =
          t := by
  simp [step, Option.bind_eq_some_iff]

end ListenerRun

end OpenModel.SchedulerClient
