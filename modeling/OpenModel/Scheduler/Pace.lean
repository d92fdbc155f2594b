import OpenModel.Lib.Refinement
import OpenModel.Scheduler.Goroutines

/-!
# The poll goroutine against the clock

The scheduler together with the time at which the poll in flight began or the last one ended,
which is what a bound on the sleep between two polls and on a whole poll speaks of.

## Main results

- `PacedSched.refines_sched`: the time that is kept changes nothing
- `PacedSched.inPace_step`: at a pace, sleeps and polls stay within it
-/

namespace OpenModel

/-- The longest sleep between two polls and the longest poll, in milliseconds. -/
structure Pace where
  interval : Nat
  longest : Nat
  deriving DecidableEq, Repr

namespace Scheduler

namespace Action

/-- The milliseconds that pass in an action. -/
def elapsed : Action → Nat
  | .elapse ms => ms
  | _ => 0

/-- A step of the poll goroutine. -/
def isPoll : Action → Bool
  | .poll _ => true
  | _ => false

theorem ne_poll_of_isPoll {a : Action} (h : a.isPoll = false) : ∀ answers, a ≠ poll answers := by
  rintro answers rfl
  cases h

end Action

namespace Sched

variable {cfg : Config} {s t : Sched} {a : Action}

/-- Time passes in no other action. -/
theorem now_of_step (h : s.step cfg a = some t) : t.now = s.now + a.elapsed := by
  cases a with
  | monitor i =>
    obtain ⟨m, c, m', -, -, rfl⟩ := monitorStep_eq_some.mp h
    rfl
  | trigger i =>
    obtain ⟨w, c, w', started, -, -, rfl⟩ := triggerStep_eq_some.mp h
    rfl
  | timer i =>
    obtain ⟨r, c, pc', -, -, rfl⟩ := timerStep_eq_some.mp h
    rfl
  | timerDone i =>
    obtain ⟨r, fireAt, -, -, -, rfl⟩ := timerDoneStep_eq_some.mp h
    rfl
  | _ =>
    cases h
    rfl

end Sched

/-- `since` is the time at which the poll in flight began or the last one ended. -/
structure PacedSched where
  sched : Sched := {}
  since : Nat := 0

namespace PacedSched

/-- How long the poll goroutine stays where it is. -/
def stay (p : Pace) : PollPc → Nat
  | .idle => p.interval
  | _ => p.longest

/-- A poll begins, ends, or does both. -/
def marks (s t : Sched) (a : Action) : Bool :=
  a.isPoll && (s.poll == .idle || t.poll == .idle)

def step (cfg : Config) (w : PacedSched) (a : Action) : Option PacedSched :=
  (w.sched.step cfg a).map fun sched =>
    ⟨sched, if marks w.sched sched a then sched.now else w.since⟩

def system (cfg : Config) : Transition.System PacedSched Action where
  init w := w = {}
  step := step cfg

/-- The sleep or the poll that is on has not lasted too long. -/
def InPace (p : Pace) (w : PacedSched) : Prop :=
  w.since ≤ w.sched.now ∧ w.sched.now ≤ w.since + stay p w.sched.poll

/-- Nor will it have when the action is over. -/
def OnTime (p : Pace) (w : PacedSched) (a : Action) : Prop :=
  w.sched.now + a.elapsed ≤ w.since + stay p w.sched.poll

instance (p : Pace) (w : PacedSched) (a : Action) : Decidable (OnTime p w a) :=
  inferInstanceAs (Decidable (_ ≤ _))

variable {cfg : Config} {p : Pace} {w v : PacedSched} {a : Action}

theorem step_eq_some : w.step cfg a = some v ↔
    ∃ sched, w.sched.step cfg a = some sched ∧
      ⟨sched, if marks w.sched sched a then sched.now else w.since⟩ = v :=
  Option.map_eq_some_iff

/-- Outside its marks the poll goroutine is neither idle before a step of its own nor after it. -/
theorem not_marks_of_poll {s t : Sched} {a : Action} (hpoll : a.isPoll)
    (h : marks s t a = false) : s.poll ≠ .idle ∧ t.poll ≠ .idle := by
  simpa [marks, hpoll] using h

theorem stay_of_ne_idle {pc : PollPc} (h : pc ≠ .idle) : stay p pc = p.longest := by
  cases pc with
  | idle => exact absurd rfl h
  | _ => rfl

/-- **Forgetting the time**: what is left is the scheduler. -/
theorem refines_sched : (system cfg).Refines (Sched.system cfg) Transition.System.anyStep
    Transition.System.anyStep PacedSched.sched where
  init := by
    rintro w rfl
    rfl
  step w a v _ hstep := by
    obtain ⟨sched, hsched, rfl⟩ := step_eq_some.mp hstep
    exact .inr ⟨a, trivial, hsched⟩

/-- **Step lemma**. -/
theorem inPace_step (h : w.InPace p) (hok : OnTime p w a) (hstep : w.step cfg a = some v) :
    v.InPace p := by
  obtain ⟨sched, hsched, rfl⟩ := step_eq_some.mp hstep
  have hnow := Sched.now_of_step hsched
  obtain ⟨hsince, -⟩ := h
  unfold OnTime at hok
  cases hm : marks w.sched sched a with
  | true =>
    simp only [InPace, if_true]
    omega
  | false =>
    simp only [InPace, Bool.false_eq_true, if_false]
    have hstay : stay p sched.poll = stay p w.sched.poll := by
      cases hp : a.isPoll with
      | true =>
        obtain ⟨hidle, hidle'⟩ := not_marks_of_poll hp hm
        rw [stay_of_ne_idle hidle, stay_of_ne_idle hidle']
      | false => rw [Sched.poll_of_step hsched (Action.ne_poll_of_isPoll hp)]
    rw [hstay]
    omega

end PacedSched

end Scheduler

end OpenModel
