import OpenModel.Lib.Hearing
import OpenModel.Lib.Refinement
import OpenModel.Sidecar.EndToEnd

/-!
# How soon a demand reaches the engine

The same two processes against the clock. A poll of the listener takes some time at most, the
wait for its pause included, and the next one begins some time after it at most. When polls are
answered and pauses succeed, from whatever state on, the GPU is paused after the poll that was in
flight, one sleep and one whole poll, however the demand came about, and it stays so until the
demand is over.

## Main results

- `Sidecar.poller_of_step`: to the listener a demand is a condition that comes and goes
- `Sidecar.heard_of_prompt`: when it has heard of a demand
- `Sidecar.applied_of_prompt`: the bound
-/

namespace OpenModel

open Hearing (Poller Event)
open SchedulerClient
open Transition (System)

namespace Sidecar

open Scheduler (Config Action)

variable {cfg : Config} {failsafeTimeout demand : Nat} {p : Pace} {s t x : Sidecar}
  {l : SidecarLabel}

-- ════════════════════════════════════════════════════════════════════════
-- Polls at a pace
-- ════════════════════════════════════════════════════════════════════════

/-- How long the listener stays where it is. -/
def stay (p : Pace) : RpcPhase → Nat
  | .sleeping => p.interval
  | .requested | .answered _ => p.longest

/-- The sleep or the poll that is on has not lasted too long. -/
def InPace (p : Pace) (s : Sidecar) : Prop := s.scheduler.now ≤ s.since + stay p s.phase

/-- Polls come at this pace, are answered, and their pauses succeed. -/
def Prompt (p : Pace) (s : Sidecar) : SidecarLabel → Prop
  | .scheduler action => s.scheduler.now + action.elapsed ≤ s.since + stay p s.phase
  | .answer a => a = .succeeded
  | .fail _ => False
  | _ => True

instance (p : Pace) (s : Sidecar) (l : SidecarLabel) : Decidable (Prompt p s l) := by
  cases l <;> unfold Prompt <;> infer_instance

-- ════════════════════════════════════════════════════════════════════════
-- The listener as a poller
-- ════════════════════════════════════════════════════════════════════════

/-- The listener asks whether the GPU is demanded. -/
def poller (s : Sidecar) : Poller where
  now := s.scheduler.now
  busy := s.phase != .sleeping
  since := s.since
  heldSince := s.demandedSince
  fresh := s.fresh
  heard := s.heard

theorem stay_eq (p : Pace) (phase : RpcPhase) :
    stay p phase = Poller.stay p.interval p.longest (phase != .sleeping) := by
  cases phase <;> rfl

theorem inPace_poller : s.poller.InPace p.interval p.longest ↔ s.InPace p := by
  unfold InPace
  rw [stay_eq]
  rfl

/-- The scheduler moves, and time passes. -/
theorem poller_watch {sched : Scheduler.Sched} {action : Action} {inference : ListenerRun}
    (hsched : s.scheduler.step cfg action = some sched) :
    ({ s.watch sched with inference } : Sidecar).poller =
      s.poller.pass action.elapsed sched.cells.current.demands := by
  have hnow := Scheduler.Sched.now_of_step hsched
  unfold watch poller Poller.pass
  cases hd : sched.cells.current.demands with
  | true => simp [hnow]
  | false => simp [hnow]

/-- **Step lemma**: what the poller sees of a step. -/
theorem poller_of_step (hstep : s.step cfg failsafeTimeout l = some t) :
    t.poller = s.poller ∨ ∃ e, s.poller.step e = some t.poller ∧
      (s.Prompt p l → s.poller.Prompt p.interval p.longest e) := by
  obtain ⟨action, sched, rfl, hsched, rfl⟩ | ⟨i, ok, inference, -, -, rfl⟩ | ⟨-, hphase, rfl⟩ |
    ⟨-, hphase, rfl⟩ | ⟨answer, a, rfl, hend⟩ := step_cases hstep
  · refine .inr ⟨.pass action.elapsed sched.cells.current.demands, ?_, fun hok => ?_⟩
    · rw [poller_watch hsched]
      rfl
    · have hpace : s.scheduler.now + action.elapsed ≤ s.since + stay p s.phase := hok
      rwa [stay_eq] at hpace
  · exact .inl rfl
  · refine .inr ⟨.ask, ?_, fun _ => trivial⟩
    simp [Poller.step, poller, hphase]
  · left
    simp only [poller, hphase]
    rfl
  · right
    have hbusy : s.phase ≠ .sleeping := by
      obtain ⟨g, -, hphase, -⟩ | ⟨-, hphase, -⟩ := hend
      · simp [hphase]
      · exact hphase
    by_cases hheard : (answer.isSome && (a == .succeeded ||
        (s.inference.poll failsafeTimeout answer a).node.dispatched ==
          s.inference.node.dispatched)) = true
    · refine ⟨.hear, ?_, fun _ => trivial⟩
      simp [Poller.step, poller, hbusy, endPoll, Bool.and_assoc, hheard]
    · refine ⟨.miss, ?_, fun hok => ?_⟩
      · simp only [Bool.not_eq_true] at hheard
        simp [Poller.step, poller, hbusy, endPoll, Bool.and_assoc, hheard]
      · obtain ⟨g, rfl, -, rfl⟩ | ⟨rfl, -, -⟩ := hend
        · obtain rfl : a = .succeeded := hok
          exact absurd rfl hheard
        · exact hok.elim

theorem refines_poller : (system cfg failsafeTimeout).Refines Poller.system (Prompt p)
    (Poller.Prompt p.interval p.longest) poller where
  init := by
    rintro s rfl
    rfl
  step s l t hok hstep :=
    (poller_of_step hstep).imp_right fun ⟨e, he, hprompt⟩ => ⟨e, hprompt hok, he⟩

/-- The poll and the demand began in the past. -/
theorem sane_of_reach (h : (system cfg failsafeTimeout).Reach System.anyStep s) :
    s.poller.Sane := by
  have hrefines : (system cfg failsafeTimeout).Refines Poller.system System.anyStep System.anyStep
      poller :=
    { init := by
        rintro s rfl
        rfl
      step := fun s l t _ hstep =>
        (poller_of_step (p := ⟨0, 0⟩) hstep).imp_right fun ⟨e, he, _⟩ => ⟨e, trivial, he⟩ }
  exact Poller.sane_of_reach (hrefines.reach h)

/-- A demand that is on for longer than one sleep and two polls was heard. -/
theorem heard_of_prompt (hx : (system cfg failsafeTimeout).Reach System.anyStep x)
    (hpace : x.InPace p) (h : ((system cfg failsafeTimeout).startingAt x).Reach (Prompt p) s)
    (hd : s.demandedSince = some demand)
    (hlong : max demand x.scheduler.now + p.interval + 2 * p.longest < s.scheduler.now) :
    s.heard :=
  Poller.heard_of_reach (sane_of_reach hx) (inPace_poller.mpr hpace)
    ((refines_poller.startingAt x).reach h) hd hlong

/-- Whatever a run from a reachable state does, the invariant of the poll in flight holds. -/
theorem inv_of_reach_startingAt {ok : Sidecar → SidecarLabel → Prop}
    (hx : (system cfg failsafeTimeout).Reach System.anyStep x)
    (h : ((system cfg failsafeTimeout).startingAt x).Reach ok s) : s.Inv :=
  inv_of_reach (hx.trans (fun _ _ _ => trivial) h)

/-- **Bounded response**: from any state on in which polls are answered in time and pauses
succeed, a demand that is on for longer than one sleep and two polls is applied: the last pause
that succeeded is later than every resume. -/
theorem applied_of_prompt (hx : (system cfg failsafeTimeout).Reach System.anyStep x)
    (hpace : x.InPace p) (h : ((system cfg failsafeTimeout).startingAt x).Reach (Prompt p) s)
    (hd : s.demandedSince = some demand)
    (hlong : max demand x.scheduler.now + p.interval + 2 * p.longest < s.scheduler.now) :
    Applied s.inference.node.dispatched := by
  have hinv := inv_of_reach_startingAt hx h
  exact (hinv.heard (heard_of_prompt hx hpace h hd hlong)).2

/-- A block is won at once; the second poll comes after a sleep of a second. -/
def secondPoll : List SidecarLabel :=
  [.scheduler (.win "won"), .scheduler (.trigger 0), .request, .read, .answer .succeeded,
    .scheduler (.elapse 1000), .request, .read, .answer .succeeded, .scheduler (.elapse 1000)]

/-- Two seconds after the win the engine is paused. -/
theorem applied_secondPoll :
    ∃ s, ((system ⟨Scheduler.defaultPolicy, true, 0⟩ 60000).startingAt {}).Reach
        (Prompt ⟨1000, 0⟩) s ∧
      s.scheduler.now = 2000 ∧ Applied s.inference.node.dispatched := by
  have hfinal : (((system ⟨Scheduler.defaultPolicy, true, 0⟩ 60000).startingAt {}).execGuarded
      (Prompt ⟨1000, 0⟩) {} secondPoll).any
      (fun s => s.demandedSince == some 0 && s.scheduler.now == 2000) = true := by
    decide +kernel
  obtain ⟨s, hrun, hs⟩ := (Option.any_eq_true _ _).mp hfinal
  obtain ⟨hdemand, hnow⟩ := Bool.and_eq_true_iff.mp hs
  rw [beq_iff_eq] at hdemand hnow
  have hreach := System.Reach.execGuarded (.init rfl) hrun
  refine ⟨s, hreach, hnow,
    applied_of_prompt (.init rfl) (Nat.zero_le _) hreach hdemand ?_⟩
  show 1000 < s.scheduler.now
  omega

end Sidecar

end OpenModel
