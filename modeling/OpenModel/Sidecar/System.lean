import OpenModel.Scheduler.Pace
import OpenModel.SchedulerClient.AppliedYield

/-!
# Scheduler and listener together

The two processes of the sidecar: the scheduler with all its goroutines, and the listener of
the inference service, which asks it for the GPU state with `GetGpuSchedule`. The request of
a poll is on its way for some time, the handler reads the state machine at one moment of it,
and the answer is acted on later still; meanwhile the scheduler goes on. Both clocks run at
one speed.

What follows the answer is one step, as in the listener's own model: it stands at the moment
at which the wait for a pause is over.

The GPU is demanded while the state machine says YIELDING, WINDOW_POST or WINNING_POST.

## Main results

- `Sidecar.refines_scheduler`, `Sidecar.refines_listener`: each process, seen alone, runs as
  it does by itself
- `Sidecar.step_cases`: what a step does
-/

namespace OpenModel

open Scheduler (Sched Action GpuState Config)
open SchedulerClient (ListenerRun ListenerLabel ScheduleState Attempt Dispatch)

/-- The number of a `pb.GpuState` in a message. -/
def Scheduler.GpuState.number : GpuState → ScheduleState
  | .unknown => 0
  | .available => 1
  | .yielding => 2
  | .windowPost => 3
  | .winningPost => 4

/-- A state in which mining needs the GPU. -/
def Scheduler.GpuState.demands : GpuState → Bool
  | .unknown | .available => false
  | .yielding | .windowPost | .winningPost => true

theorem Scheduler.GpuState.number_mem_yieldStates {g : GpuState} :
    g.number ∈ SchedulerClient.yieldStates ↔ g.demands := by
  cases g <;> decide

/-- Where `_poll` is. -/
inductive RpcPhase
  /-- between two polls -/
  | sleeping
  /-- the request is on its way -/
  | requested
  /-- the handler has read this state -/
  | answered (state : GpuState)
  deriving DecidableEq, Repr

/-- The two processes and the request between them; `since` is the time at which the poll in
flight began or the last one ended. The rest is kept by neither process and is about the
demand that is on: since when, whether the poll in flight began in it, whether such a poll was
answered and left no failed pause behind, and how many resumes were dispatched in it. -/
structure Sidecar where
  scheduler : Sched := {}
  inference : ListenerRun := {}
  phase : RpcPhase := .sleeping
  since : Nat := 0
  demandedSince : Option Nat := none
  fresh : Bool := false
  heard : Bool := false
  resumes : Nat := 0

/-- What happens next. -/
inductive SidecarLabel
  | scheduler (action : Action)
  /-- a dispatched coroutine that was still running ends -/
  | finish (i : Nat) (ok : Bool)
  /-- the listener calls `get_gpu_schedule` -/
  | request
  /-- the handler reads the state machine -/
  | read
  /-- the answer arrives; `a` is how a pause would go -/
  | answer (a : Attempt)
  /-- the call fails -/
  | fail (a : Attempt)

namespace Sidecar

/-- Time passes for the listener. -/
def sleep (run : ListenerRun) (ms : Nat) : ListenerRun :=
  { run with node := { run.node with now := run.node.now + ms } }

/-- The scheduler is now `sched`. -/
def watch (s : Sidecar) (sched : Sched) : Sidecar :=
  if sched.cells.current.demands then
    { s with scheduler := sched, demandedSince := some (s.demandedSince.getD sched.now) }
  else
    { s with
      scheduler := sched
      demandedSince := none
      fresh := false
      heard := false
      resumes := 0 }

/-- The resumes that were dispatched behind the first `n` commands. -/
def resumesAfter (n : Nat) (ds : List Dispatch) : Nat :=
  (ds.drop n).countP fun d => !d.command.isPause

/-- The poll in flight ends. -/
def endPoll (failsafeTimeout : Nat) (s : Sidecar) (answer : Option ScheduleState) (a : Attempt) :
    Sidecar :=
  let before := s.inference.node.dispatched
  let inference := s.inference.poll failsafeTimeout answer a
  let after := inference.node.dispatched
  { s with
    inference
    phase := .sleeping
    since := s.scheduler.now
    fresh := false
    heard := s.heard || (s.fresh && answer.isSome && (a == .succeeded || after == before))
    resumes :=
      if s.demandedSince.isSome then s.resumes + resumesAfter before.length after else 0 }

def step (cfg : Config) (failsafeTimeout : Nat) (s : Sidecar) : SidecarLabel → Option Sidecar
  | .scheduler action =>
    (Sched.step cfg s.scheduler action).map fun sched =>
      { s.watch sched with inference := sleep s.inference action.elapsed }
  | .finish i ok =>
    (s.inference.step failsafeTimeout (.finish i ok)).map fun inference => { s with inference }
  | .request =>
    if s.phase = .sleeping then
      some { s with
        phase := .requested
        since := s.scheduler.now
        fresh := s.demandedSince.isSome }
    else none
  | .read =>
    if s.phase = .requested then some { s with phase := .answered s.scheduler.cells.current }
    else none
  | .answer a =>
    match s.phase with
    | .answered g => some (s.endPoll failsafeTimeout (some g.number) a)
    | _ => none
  | .fail a => if s.phase ≠ .sleeping then some (s.endPoll failsafeTimeout none a) else none

/-- Both processes from their start on. -/
def system (cfg : Config) (failsafeTimeout : Nat) : Transition.System Sidecar SidecarLabel where
  init s := s = {}
  step := step cfg failsafeTimeout

variable {cfg : Config} {failsafeTimeout : Nat} {s t : Sidecar} {l : SidecarLabel}

@[simp] theorem watch_scheduler (s : Sidecar) (sched : Sched) :
    (s.watch sched).scheduler = sched := by
  unfold watch
  split <;> rfl

@[simp] theorem watch_phase (s : Sidecar) (sched : Sched) : (s.watch sched).phase = s.phase := by
  unfold watch
  split <;> rfl

@[simp] theorem watch_since (s : Sidecar) (sched : Sched) : (s.watch sched).since = s.since := by
  unfold watch
  split <;> rfl

theorem watch_demandedSince (s : Sidecar) (sched : Sched) :
    (s.watch sched).demandedSince =
      if sched.cells.current.demands then some (s.demandedSince.getD sched.now) else none := by
  unfold watch
  split <;> rfl

/-- **What a step does**: the scheduler moves, a command ends, or the poll goes on. -/
theorem step_cases (h : s.step cfg failsafeTimeout l = some t) :
    (∃ action sched, l = .scheduler action ∧ Sched.step cfg s.scheduler action = some sched ∧
      t = { s.watch sched with inference := sleep s.inference action.elapsed }) ∨
    (∃ i ok inference, l = .finish i ok ∧
      s.inference.step failsafeTimeout (.finish i ok) = some inference ∧ t = { s with inference }) ∨
    (l = .request ∧ s.phase = .sleeping ∧
      t = { s with
        phase := .requested
        since := s.scheduler.now
        fresh := s.demandedSince.isSome }) ∨
    (l = .read ∧ s.phase = .requested ∧
      t = { s with phase := .answered s.scheduler.cells.current }) ∨
    ∃ answer a, t = s.endPoll failsafeTimeout answer a ∧
      ((∃ g, l = .answer a ∧ s.phase = .answered g ∧ answer = some g.number) ∨
        l = .fail a ∧ s.phase ≠ .sleeping ∧ answer = none) := by
  cases l with
  | scheduler action =>
    obtain ⟨sched, hsched, rfl⟩ := Option.map_eq_some_iff.mp h
    exact .inl ⟨action, sched, rfl, hsched, rfl⟩
  | finish i ok =>
    obtain ⟨inference, hrun, rfl⟩ := Option.map_eq_some_iff.mp h
    exact .inr (.inl ⟨i, ok, inference, rfl, hrun, rfl⟩)
  | request =>
    obtain ⟨hphase, ht⟩ := Option.ite_none_right_eq_some.mp h
    exact .inr (.inr (.inl ⟨rfl, hphase, (Option.some.inj ht).symm⟩))
  | read =>
    obtain ⟨hphase, ht⟩ := Option.ite_none_right_eq_some.mp h
    exact .inr (.inr (.inr (.inl ⟨rfl, hphase, (Option.some.inj ht).symm⟩)))
  | answer a =>
    cases hphase : s.phase with
    | answered g =>
      rw [step, hphase] at h
      exact .inr (.inr (.inr (.inr
        ⟨some g.number, a, (Option.some.inj h).symm, .inl ⟨g, rfl, rfl, rfl⟩⟩)))
    | sleeping | requested =>
      rw [step, hphase] at h
      cases h
  | fail a =>
    obtain ⟨hphase, ht⟩ := Option.ite_none_right_eq_some.mp h
    exact .inr (.inr (.inr (.inr ⟨none, a, (Option.some.inj ht).symm, .inr ⟨rfl, hphase, rfl⟩⟩)))

/-- **The scheduler alone** does not see the listener. -/
theorem refines_scheduler {ok : Sidecar → SidecarLabel → Prop} {ok' : Sched → Action → Prop}
    (hok : ∀ s action, ok s (.scheduler action) → ok' s.scheduler action) :
    (system cfg failsafeTimeout).Refines (Sched.system cfg) ok ok' Sidecar.scheduler where
  init := by
    rintro s rfl
    rfl
  step s l t hl hstep := by
    obtain ⟨action, sched, rfl, hsched, rfl⟩ | ⟨i, ok, inference, -, -, rfl⟩ | ⟨-, -, rfl⟩ |
      ⟨-, -, rfl⟩ | ⟨answer, a, rfl, -⟩ := step_cases hstep
    · refine .inr ⟨action, hok s action hl, ?_⟩
      show Sched.step cfg s.scheduler action = some (s.watch sched).scheduler
      rw [watch_scheduler, hsched]
    all_goals exact .inl rfl

/-- **The listener alone** sees polls that fail or receive a state. -/
theorem refines_listener : (system cfg failsafeTimeout).Refines
    (ListenerRun.system failsafeTimeout) Transition.System.anyStep Transition.System.anyStep
    Sidecar.inference where
  init := by
    rintro s rfl
    rfl
  step s l t _ hstep := by
    obtain ⟨action, sched, -, -, rfl⟩ | ⟨i, ok, inference, -, hrun, rfl⟩ | ⟨-, -, rfl⟩ |
      ⟨-, -, rfl⟩ | ⟨answer, a, rfl, -⟩ := step_cases hstep
    · exact .inr ⟨.elapse action.elapsed, trivial, rfl⟩
    · exact .inr ⟨.finish i ok, trivial, hrun⟩
    · exact .inl rfl
    · exact .inl rfl
    · exact .inr ⟨.poll answer a, trivial, rfl⟩

end Sidecar

end OpenModel
