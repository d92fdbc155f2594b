import OpenModel.Scheduler.HardStop
import OpenModel.Sidecar.Prompt

/-!
# Heard before the window opens

Both processes on the way to the window of a deadline whose proof is not recorded: the scheduler
polls Lotus at one pace, the listener polls the scheduler at another. From an epoch within the
hard-stop threshold on, where no block is won and no proof monitor takes a step before the window
closes, the listener has heard of the demand after one sleep and one poll of the scheduler and then
one sleep and two polls of its own. Where this is shorter than the threshold, it is before the
window opens.

## Main results

- `PacedSidecar.refines_paced`, `PacedSidecar.refines_sidecar`: the scheduler on its way and the
  listener at its pace are what the two processes are by themselves
- `PacedSidecar.demandedBy_of_reach`: when the demand for the window began
- `PacedSidecar.Journey.heard_of_late`: the bound
-/

namespace OpenModel

open Scheduler (Sched PacedSched Action Approach Config ProvingSchedule)
open SchedulerClient (Applied)
open Transition (System)

/-- The two processes; `polledAt` is the time at which the scheduler's poll in flight began or the
last one ended. -/
structure PacedSidecar where
  sidecar : Sidecar := {}
  polledAt : Nat := 0

namespace PacedSidecar

/-- The time of the last beginning or end of a poll of the scheduler. -/
def mark (j : PacedSidecar) (sidecar : Sidecar) : SidecarLabel → Nat
  | .scheduler action =>
    if PacedSched.marks j.sidecar.scheduler sidecar.scheduler action then sidecar.scheduler.now
    else j.polledAt
  | _ => j.polledAt

def step (cfg : Config) (failsafeTimeout : Nat) (j : PacedSidecar) (l : SidecarLabel) :
    Option PacedSidecar :=
  (j.sidecar.step cfg failsafeTimeout l).map fun sidecar => ⟨sidecar, j.mark sidecar l⟩

def system (cfg : Config) (failsafeTimeout : Nat) :
    Transition.System PacedSidecar SidecarLabel where
  init j := j = {}
  step := step cfg failsafeTimeout

/-- The scheduler and its pace. -/
def paced (j : PacedSidecar) : PacedSched := ⟨j.sidecar.scheduler, j.polledAt⟩

/-- In every poll of the scheduler, Lotus reports the schedule and the sectors, or fails. -/
def FromLotus (S : ProvingSchedule) (sectors : Nat → Nat) (s : Sidecar) : SidecarLabel → Prop
  | .scheduler action => Sched.FromLotus S sectors s.scheduler action
  | _ => True

/-- The scheduler is on its way at the pace `q`, and the listener's polls are prompt at the
pace `p`. -/
def Punctual (A : Approach) (q p : Pace) (j : PacedSidecar) (l : SidecarLabel) : Prop :=
  j.sidecar.Prompt p l ∧
    match l with
    | .scheduler action => A.Punctual q j.paced action
    | _ => True

variable {A : Approach} {q p : Pace} {failsafeTimeout : Nat} {x j k : PacedSidecar}
  {l : SidecarLabel}

theorem step_eq_some {cfg : Config} : j.step cfg failsafeTimeout l = some k ↔
    ∃ sidecar, j.sidecar.step cfg failsafeTimeout l = some sidecar ∧
      ⟨sidecar, j.mark sidecar l⟩ = k :=
  Option.map_eq_some_iff

/-- **Forgetting the time** of the scheduler's polls. -/
theorem refines_sidecar {cfg : Config} {ok : PacedSidecar → SidecarLabel → Prop}
    {ok' : Sidecar → SidecarLabel → Prop} (hok : ∀ j l, ok j l → ok' j.sidecar l) :
    (system cfg failsafeTimeout).Refines (Sidecar.system cfg failsafeTimeout) ok ok'
      PacedSidecar.sidecar where
  init := by
    rintro j rfl
    rfl
  step j l k hl hstep := by
    obtain ⟨sidecar, hsidecar, rfl⟩ := step_eq_some.mp hstep
    exact .inr ⟨l, hok j l hl, hsidecar⟩

/-- **The scheduler with its pace** does not see the listener. -/
theorem refines_paced {cfg : Config} {ok : PacedSidecar → SidecarLabel → Prop}
    {ok' : PacedSched → Action → Prop}
    (hok : ∀ j action, ok j (.scheduler action) → ok' j.paced action) :
    (system cfg failsafeTimeout).Refines (PacedSched.system cfg) ok ok' PacedSidecar.paced where
  init := by
    rintro j rfl
    rfl
  step j l k hl hstep := by
    obtain ⟨sidecar, hsidecar, rfl⟩ := step_eq_some.mp hstep
    obtain ⟨action, sched, rfl, hsched, rfl⟩ | ⟨i, ok, inference, rfl, -, rfl⟩ |
      ⟨rfl, -, rfl⟩ | ⟨rfl, -, rfl⟩ | ⟨answer, a, rfl, hend⟩ := Sidecar.step_cases hsidecar
    · refine .inr ⟨action, hok j action hl, PacedSched.step_eq_some.mpr ⟨sched, hsched, ?_⟩⟩
      simp only [paced, mark, Sidecar.watch_scheduler]
      rfl
    · exact .inl rfl
    · exact .inl rfl
    · exact .inl rfl
    · obtain ⟨g, rfl, -⟩ | ⟨rfl, -⟩ := hend
      all_goals exact .inl rfl

/-- A run that goes on from a state in which the scheduler is about to begin its way. -/
structure Journey (A : Approach) (q p : Pace) (failsafeTimeout : Nat) (x j : PacedSidecar) :
    Prop where
  before : (Sidecar.system A.cfg failsafeTimeout).Reach (FromLotus A.schedule A.sectors) x.sidecar
  calm : A.Calm x.sidecar.scheduler
  paced : x.paced.InPace q
  inPace : x.sidecar.InPace p
  run : ((system A.cfg failsafeTimeout).startingAt x).Reach (Punctual A q p) j

namespace Journey

theorem reach (h : Journey A q p failsafeTimeout x j) :
    (Sidecar.system A.cfg failsafeTimeout).Reach System.anyStep x.sidecar :=
  h.before.mono fun _ _ _ => trivial

/-- The scheduler is on its way. -/
theorem onWay (h : Journey A q p failsafeTimeout x j) :
    A.OnWay q x.sidecar.scheduler.now j.paced :=
  have hsched : (Sched.system A.cfg).Reach (Sched.FromLotus A.schedule A.sectors)
      x.sidecar.scheduler :=
    System.Refines.reach (Sidecar.refines_scheduler fun _ _ hok => hok) h.before
  A.onWay_of_reach hsched h.calm h.paced
    (((refines_paced fun _ _ hok => hok.2).startingAt x).reach h.run)

/-- The listener alone, at its pace. -/
theorem listener (h : Journey A q p failsafeTimeout x j) :
    ((Sidecar.system A.cfg failsafeTimeout).startingAt x.sidecar).Reach (Sidecar.Prompt p)
      j.sidecar :=
  ((refines_sidecar fun _ _ hok => hok.1).startingAt x).reach h.run

/-- The poll and the demand began in the past. -/
theorem sane (h : Journey A q p failsafeTimeout x j) : j.sidecar.poller.Sane :=
  Sidecar.sane_of_reach (h.reach.trans (fun _ _ _ => trivial) h.listener)

end Journey

/-- WINDOW_POST answers a demand that began by the time `bound`. -/
def DemandedBy (bound : Nat) (j : PacedSidecar) : Prop :=
  j.sidecar.scheduler.cells.current = .windowPost →
    ∃ demand, j.sidecar.demandedSince = some demand ∧ demand ≤ bound

/-- **Step lemma**: the demand for the window begins when the state machine gets to WINDOW_POST
at the latest. -/
theorem DemandedBy.step {start : Nat} (h : DemandedBy (start + q.interval + q.longest) j)
    (hway : A.OnWay q start j.paced) (hsane : j.sidecar.poller.Sane)
    (hstep : j.step A.cfg failsafeTimeout l = some k) :
    DemandedBy (start + q.interval + q.longest) k := by
  obtain ⟨sidecar, hsidecar, rfl⟩ := step_eq_some.mp hstep
  obtain ⟨action, sched, rfl, hsched, rfl⟩ | ⟨i, ok, inference, rfl, -, rfl⟩ |
    ⟨rfl, -, rfl⟩ | ⟨rfl, -, rfl⟩ | ⟨answer, a, rfl, -⟩ := Sidecar.step_cases hsidecar
  · intro hw
    simp only [Sidecar.watch_scheduler] at hw
    have hdemand : (j.sidecar.watch sched).demandedSince =
        some (j.sidecar.demandedSince.getD sched.now) := by
      simp [Sidecar.watch_demandedSince, hw, Scheduler.GpuState.demands]
    refine ⟨_, hdemand, ?_⟩
    by_cases hcur : j.sidecar.scheduler.cells.current = .windowPost
    · obtain ⟨demand, hd, hle⟩ := h hcur
      simpa [hd] using hle
    · -- the state machine moved, so that no time has passed
      have hnow : j.sidecar.scheduler.now ≤ start + q.interval + q.longest := by
        by_contra hlate
        exact hcur (hway.windowPost (not_le.mp hlate))
      have helapsed : sched.now = j.sidecar.scheduler.now := by
        rw [Sched.now_of_step hsched]
        cases action with
        | elapse ms =>
          cases hsched
          exact absurd hw hcur
        | _ => rfl
      cases hd : j.sidecar.demandedSince with
      | none => simpa [helapsed] using hnow
      | some demand => exact (hsane.held demand hd).trans hnow
  all_goals exact h

/-- **Run lemma**. -/
theorem demandedBy_of_reach (h : Journey A q p failsafeTimeout x j) :
    DemandedBy (x.sidecar.scheduler.now + q.interval + q.longest) j := by
  obtain ⟨hbefore, hcalm, hpaced, hpace, hrun⟩ := h
  refine hrun.invariant_of
    (I := DemandedBy (x.sidecar.scheduler.now + q.interval + q.longest))
    (J := Journey A q p failsafeTimeout x) (fun k hk => ⟨hbefore, hcalm, hpaced, hpace, hk⟩) ?_
    fun k l k' hk hs _ hstep => hs.step hk.onWay hk.sane hstep
  rintro k rfl hw
  have hreach : (Sidecar.system A.cfg failsafeTimeout).Reach System.anyStep k.sidecar :=
    hbefore.mono fun _ _ _ => trivial
  have hsome : k.sidecar.demandedSince.isSome := by
    rw [(Sidecar.inv_of_reach hreach).demanded, hw]
    rfl
  obtain ⟨demand, hd⟩ := Option.isSome_iff_exists.mp hsome
  have hle : demand ≤ k.sidecar.scheduler.now := (Sidecar.sane_of_reach hreach).held demand hd
  exact ⟨demand, hd, by omega⟩

/-- **Heard in time**: from a state within the hard-stop threshold on, with both pollers at their
pace, the state machine says WINDOW_POST and the listener has heard of it after one sleep and one
poll of the scheduler and one sleep and two polls of the listener, until the window closes or its
proof is detected. -/
theorem Journey.heard_of_late (h : Journey A q p failsafeTimeout x j)
    (hlate : x.sidecar.scheduler.now + q.interval + q.longest + p.interval + 2 * p.longest <
      j.sidecar.scheduler.now) :
    j.sidecar.scheduler.cells.current = .windowPost ∧ j.sidecar.heard := by
  have hw : j.sidecar.scheduler.cells.current = .windowPost :=
    h.onWay.windowPost (show _ < j.sidecar.scheduler.now by omega)
  obtain ⟨demand, hd, hbound⟩ := demandedBy_of_reach h hw
  exact ⟨hw, Sidecar.heard_of_prompt h.reach h.inPace h.listener hd (by omega)⟩

/-- What can be decided of a punctual step. -/
def checked (p q : Pace) (j : PacedSidecar) (l : SidecarLabel) : Bool :=
  decide (j.sidecar.Prompt p l) &&
    match l with
    | .scheduler action => decide (j.paced.OnTime q action)
    | _ => true

/-- A run in which the scheduler polls at the hard stop, or waits. -/
theorem punctual_of_checked {p q : Pace} (h : j.checked p q l)
    (hl : ∀ action, l = .scheduler action →
      action = .poll Approach.secondPeriodAnswers ∨ ∃ ms, action = .elapse ms) :
    Punctual .secondPeriod q p j l := by
  obtain ⟨hprompt, hpace⟩ := Bool.and_eq_true_iff.mp h
  refine ⟨of_decide_eq_true hprompt, ?_⟩
  cases l with
  | scheduler action =>
    have honTime := of_decide_eq_true hpace
    obtain rfl | ⟨ms, rfl⟩ := hl action rfl
    · exact ⟨honTime, Approach.answers_secondPeriod⟩
    · exact ⟨honTime, trivial⟩
  | _ => trivial

end PacedSidecar

end OpenModel
