import OpenModel.SchedulerClient.LastCommand
import OpenModel.Sidecar.Prompt

/-!
# How soon the engine is resumed

When the scheduler is AVAILABLE again, the listener hears of it as of a demand: from the poll
after the one that was in flight on, every poll reads AVAILABLE until the scheduler says something
else. The engine was then told to resume last, unless a failed pause was forgotten: the poll
applies AVAILABLE only where `_last_state` does not say so already.

## Main results

- `ListenerRun.lastCommand_of_available`: what an AVAILABLE poll leaves as the last command
- `Resuming.inv_of_reach`: the invariant of the poll in flight
- `Resuming.resumed_of_prompt`: the bound
-/

namespace OpenModel

open Hearing (Poller Event)
open SchedulerClient
open Transition (System)

-- ════════════════════════════════════════════════════════════════════════
-- One poll of the listener
-- ════════════════════════════════════════════════════════════════════════

namespace SchedulerClient.ListenerRun

variable {s : ListenerRun} {state : ScheduleState} {a : Attempt} {failsafeTimeout : Nat}

/-- While AVAILABLE is stored, the last command is not a pause that failed. -/
def Recalls (s : ListenerRun) : Prop :=
  s.failed = true → s.node.listener.lastState ≠ some gpuStateAvailable

/-- What is stored before the comparison is AVAILABLE only if it was before. -/
theorem Recalls.settled (h : s.Recalls) (hfailed : s.failed = true) :
    s.node.settled.lastState ≠ some gpuStateAvailable := by
  obtain hsame | hnone := s.node.lastState_settled
  · rw [hsame]
    exact h hfailed
  · rw [hnone]
    exact (Option.some_ne_none _).symm

/-- An answered poll whose pause succeeds leaves no failed pause behind. -/
theorem Recalls.poll (h : s.Recalls) :
    (s.poll failsafeTimeout (some state) .succeeded).Recalls := by
  intro hfailed
  -- nothing was dispatched, since otherwise the last command has succeeded
  obtain ⟨hsame, hbefore⟩ : (s.node.pollAnswered state .succeeded).dispatched =
      s.node.dispatched ∧ s.failed = true := by
    have hif : (if (s.node.pollAnswered state .succeeded).dispatched = s.node.dispatched then
        s.failed else s.node.attempts (s.node.pollAnswered state .succeeded) && false) = true :=
      hfailed
    split_ifs at hif with heq
    · exact ⟨heq, hif⟩
    · simp at hif
  show (s.node.pollAnswered state .succeeded).listener.lastState ≠ _
  unfold Node.pollAnswered at hsame ⊢
  split_ifs at hsame ⊢ with hstored
  · exact h.settled hbefore
  · obtain ⟨-, heq⟩ | ⟨-, heq⟩ | ⟨-, -, heq⟩ :=
      Node.applyThen_cases { s.node with listener := s.node.settled } state .succeeded
        fun l => { l with lastState := some state }
    · simp [heq] at hsame
    · simp [heq] at hsame
    · rw [heq]
      exact h.settled hbefore

/-- **An AVAILABLE poll**: the last command is a resume. -/
theorem lastCommand_of_available (h : s.Recalls) (htold : s.node.Told s.failed) :
    lastCommand (s.poll failsafeTimeout (some gpuStateAvailable) a).node.dispatched =
      some .resume := by
  show lastCommand (s.node.pollAnswered gpuStateAvailable a).dispatched = some .resume
  unfold Node.pollAnswered
  split_ifs with hstored
  · obtain hsame | hnone := s.node.lastState_settled
    · have hlast := hsame.symm.trans hstored.symm
      exact (htold.available hlast).mpr (by simpa using fun hfailed => h hfailed hlast)
    · rw [hnone] at hstored
      cases hstored
  · obtain ⟨-, heq⟩ | ⟨hy, -⟩ | ⟨hne, -⟩ :=
      Node.applyThen_cases { s.node with listener := s.node.settled } gpuStateAvailable a
        fun l => { l with lastState := some gpuStateAvailable }
    · rw [heq]
      exact lastCommand_append
    · exact absurd hy Node.available_not_mem_yieldStates
    · exact absurd rfl hne

end SchedulerClient.ListenerRun

-- ════════════════════════════════════════════════════════════════════════
-- The poll in flight
-- ════════════════════════════════════════════════════════════════════════

/-- The state machine says AVAILABLE. -/
def Sidecar.isAvailable (s : Sidecar) : Bool := s.scheduler.cells.current == .available

/-- The two processes, and what neither keeps: since when the scheduler is AVAILABLE, whether the
poll in flight began when it was, and whether such a poll was answered. -/
structure Resuming where
  sidecar : Sidecar := {}
  availableSince : Option Nat := none
  fresh : Bool := false
  heard : Bool := false

namespace Resuming

/-- The sidecar is now `s`. -/
def watch (w : Resuming) (s : Sidecar) : SidecarLabel → Resuming
  | .scheduler _ =>
    { sidecar := s
      availableSince :=
        if s.isAvailable then some (w.availableSince.getD s.scheduler.now) else none
      fresh := w.fresh && s.isAvailable
      heard := w.heard && s.isAvailable }
  | .request => { w with sidecar := s, fresh := w.availableSince.isSome }
  | .answer _ => { w with sidecar := s, fresh := false, heard := w.heard || w.fresh }
  | .fail _ => { w with sidecar := s, fresh := false }
  | .finish _ _ | .read => { w with sidecar := s }

def step (cfg : Scheduler.Config) (failsafeTimeout : Nat) (w : Resuming) (l : SidecarLabel) :
    Option Resuming :=
  (w.sidecar.step cfg failsafeTimeout l).map fun s => w.watch s l

/-- Nothing was heard yet. -/
def start (x : Sidecar) : Resuming where
  sidecar := x
  availableSince := if x.isAvailable then some x.scheduler.now else none

/-- The runs that go on from the sidecar `x`. -/
def system (cfg : Scheduler.Config) (failsafeTimeout : Nat) (x : Sidecar) :
    System Resuming SidecarLabel where
  init w := w = start x
  step := step cfg failsafeTimeout

variable {cfg : Scheduler.Config} {failsafeTimeout since : Nat} {p : Pace} {w v : Resuming}
  {x : Sidecar} {l : SidecarLabel}

@[simp] theorem watch_sidecar (s : Sidecar) (l : SidecarLabel) : (w.watch s l).sidecar = s := by
  cases l <;> rfl

theorem step_eq_some : w.step cfg failsafeTimeout l = some v ↔
    ∃ s, w.sidecar.step cfg failsafeTimeout l = some s ∧ w.watch s l = v :=
  Option.map_eq_some_iff

/-- **The two processes alone** run as they do by themselves. -/
theorem refines_sidecar {ok : Resuming → SidecarLabel → Prop} {ok' : Sidecar → SidecarLabel → Prop}
    (hok : ∀ w l, ok w l → ok' w.sidecar l) :
    (system cfg failsafeTimeout x).Refines ((Sidecar.system cfg failsafeTimeout).startingAt x) ok ok'
      Resuming.sidecar where
  init := by
    rintro w rfl
    rfl
  step w l v hl hstep := by
    obtain ⟨s, hs, rfl⟩ := step_eq_some.mp hstep
    exact .inr ⟨l, hok w l hl, hs.trans (congrArg some (watch_sidecar s l).symm)⟩

theorem sidecar_of_reach {ok : Resuming → SidecarLabel → Prop}
    (hx : (Sidecar.system cfg failsafeTimeout).Reach System.anyStep x)
    (h : (system cfg failsafeTimeout x).Reach ok w) :
    (Sidecar.system cfg failsafeTimeout).Reach System.anyStep w.sidecar :=
  have href : ((Sidecar.system cfg failsafeTimeout).startingAt x).Reach System.anyStep w.sidecar :=
    System.Refines.reach (refines_sidecar fun _ _ _ => trivial) h
  hx.trans (fun _ _ _ => trivial) href

/-- Polls come at the pace `p`, are answered, and their pauses succeed. -/
def Prompt (p : Pace) (w : Resuming) (l : SidecarLabel) : Prop := w.sidecar.Prompt p l

instance (p : Pace) (w : Resuming) (l : SidecarLabel) : Decidable (Prompt p w l) :=
  inferInstanceAs (Decidable (w.sidecar.Prompt p l))

/-- The listener asks whether the scheduler is AVAILABLE. -/
def poller (w : Resuming) : Poller where
  now := w.sidecar.scheduler.now
  busy := w.sidecar.phase != .sleeping
  since := w.sidecar.since
  heldSince := w.availableSince
  fresh := w.fresh
  heard := w.heard

/-- **Step lemma**: what the poller sees of a step. -/
theorem poller_of_step (hstep : w.step cfg failsafeTimeout l = some v) :
    v.poller = w.poller ∨ ∃ e, w.poller.step e = some v.poller ∧
      (w.Prompt p l → w.poller.Prompt p.interval p.longest e) := by
  obtain ⟨s, hs, rfl⟩ := step_eq_some.mp hstep
  obtain ⟨action, sched, rfl, hsched, rfl⟩ | ⟨i, ok, inference, rfl, -, rfl⟩ |
    ⟨rfl, hphase, rfl⟩ | ⟨rfl, hphase, rfl⟩ | ⟨answer, a, rfl, hend⟩ := Sidecar.step_cases hs
  · have hnow := Scheduler.Sched.now_of_step hsched
    refine .inr ⟨.pass action.elapsed (sched.cells.current == .available), ?_, fun hok => ?_⟩
    · simp [Poller.step, Poller.pass, poller, watch, Sidecar.isAvailable, hnow]
    · have hpace : w.sidecar.scheduler.now + action.elapsed ≤
          w.sidecar.since + Sidecar.stay p w.sidecar.phase := hok
      rwa [Sidecar.stay_eq] at hpace
  · exact .inl rfl
  · refine .inr ⟨.ask, ?_, fun _ => trivial⟩
    simp [Poller.step, poller, watch, hphase]
  · left
    simp only [poller, watch, hphase]
    rfl
  · right
    obtain ⟨g, rfl, hphase, -⟩ | ⟨rfl, hphase, -⟩ := hend
    · refine ⟨.hear, ?_, fun _ => trivial⟩
      simp [Poller.step, poller, watch, Sidecar.endPoll, hphase]
    · refine ⟨.miss, ?_, fun hok => hok.elim⟩
      simp [Poller.step, poller, watch, Sidecar.endPoll, hphase]

theorem refines_poller : (system cfg failsafeTimeout x).Refines
    (Poller.system.startingAt (start x).poller) (Prompt p) (Poller.Prompt p.interval p.longest)
    poller where
  init := by
    rintro w rfl
    rfl
  step w l v hok hstep :=
    (poller_of_step hstep).imp_right fun ⟨e, he, hprompt⟩ => ⟨e, hprompt hok, he⟩

theorem sane_start (hx : (Sidecar.system cfg failsafeTimeout).Reach System.anyStep x) :
    (start x).poller.Sane where
  since := (Sidecar.sane_of_reach hx).since
  held held hheld := by
    obtain ⟨-, hnow⟩ := Option.ite_none_right_eq_some.mp hheld
    exact (Option.some.inj hnow).ge
  fresh := Bool.noConfusion

-- ════════════════════════════════════════════════════════════════════════
-- The last command
-- ════════════════════════════════════════════════════════════════════════

/-- The invariant of the poll in flight. -/
structure Inv (w : Resuming) : Prop where
  available : w.availableSince.isSome = w.sidecar.isAvailable
  fresh : w.fresh → w.sidecar.isAvailable
  /-- a poll that began when the scheduler was AVAILABLE has read it -/
  read : ∀ g, w.sidecar.phase = .answered g → w.fresh → g = .available
  /-- polls come one after the other -/
  next : w.heard → w.sidecar.phase ≠ .sleeping → w.fresh
  heard : w.heard → w.sidecar.isAvailable

theorem inv_start (x : Sidecar) : (start x).Inv where
  available := by
    show (if x.isAvailable then some x.scheduler.now else none).isSome = x.isAvailable
    cases x.isAvailable <;> rfl
  fresh := Bool.noConfusion
  read _ _ := Bool.noConfusion
  next := Bool.noConfusion
  heard := Bool.noConfusion

/-- The scheduler moves. -/
theorem Inv.watch (h : w.Inv) {s : Sidecar} (hphase : s.phase = w.sidecar.phase)
    (action : Scheduler.Action) : (w.watch s (.scheduler action)).Inv where
  available := by
    show (if s.isAvailable then some (w.availableSince.getD s.scheduler.now) else none).isSome = _
    cases hav : s.isAvailable <;> exact hav.symm
  fresh hfresh := (Bool.and_eq_true_iff.mp hfresh).2
  read g hg hfresh := h.read g (hphase.symm.trans hg) (Bool.and_eq_true_iff.mp hfresh).1
  next hh hp := by
    obtain ⟨hheard, hav⟩ := Bool.and_eq_true_iff.mp hh
    exact Bool.and_eq_true_iff.mpr ⟨h.next hheard (hphase ▸ hp), hav⟩
  heard hh := (Bool.and_eq_true_iff.mp hh).2

/-- **Step lemma**. -/
theorem Inv.step (h : w.Inv) (hstep : w.step cfg failsafeTimeout l = some v) : v.Inv := by
  obtain ⟨s, hs, rfl⟩ := step_eq_some.mp hstep
  obtain ⟨action, sched, rfl, hsched, rfl⟩ | ⟨i, ok, inference, rfl, -, rfl⟩ |
    ⟨rfl, hphase, rfl⟩ | ⟨rfl, hphase, rfl⟩ | ⟨answer, a, rfl, hend⟩ := Sidecar.step_cases hs
  · refine h.watch ?_ action
    exact Sidecar.watch_phase w.sidecar sched
  · exact ⟨h.available, h.fresh, h.read, h.next, h.heard⟩
  · refine ⟨h.available, fun hfresh => ?_, fun g hg => ?_, fun hh _ => ?_, h.heard⟩
    · exact h.available.symm.trans hfresh
    · cases hg
    · exact h.available.trans (h.heard hh)
  · refine ⟨h.available, h.fresh, fun g hg hfresh => ?_, fun hh _ => ?_, h.heard⟩
    · cases hg
      exact beq_iff_eq.mp (h.fresh hfresh)
    · exact h.next hh (by simp [hphase])
  · obtain ⟨g, rfl, hphase, -⟩ | ⟨rfl, hphase, -⟩ := hend
    · refine ⟨h.available, Bool.noConfusion, fun _ _ => Bool.noConfusion, fun _ hp => ?_,
        fun hh => ?_⟩
      · exact absurd rfl hp
      · exact (Bool.or_eq_true_iff.mp hh).elim h.heard h.fresh
    · exact ⟨h.available, Bool.noConfusion, fun _ _ => Bool.noConfusion, fun _ hp => absurd rfl hp,
        h.heard⟩

/-- **Run lemma**. -/
theorem inv_of_reach {ok : Resuming → SidecarLabel → Prop}
    (h : (system cfg failsafeTimeout x).Reach ok w) : w.Inv := by
  refine h.invariant (I := Inv) ?_ fun w l v hw _ hstep => hw.step hstep
  rintro w rfl
  exact inv_start x

theorem told_of_reach {ok : Resuming → SidecarLabel → Prop}
    (hx : (Sidecar.system cfg failsafeTimeout).Reach System.anyStep x)
    (h : (system cfg failsafeTimeout x).Reach ok w) :
    w.sidecar.inference.node.Told w.sidecar.inference.failed :=
  have hlistener : (ListenerRun.system failsafeTimeout).Reach System.anyStep w.sidecar.inference :=
    Sidecar.refines_listener.reach (sidecar_of_reach hx h)
  ListenerRun.told_of_reach hlistener

/-- No failed pause is forgotten, and AVAILABLE is applied once it was heard. -/
structure Resumes (w : Resuming) : Prop where
  recalls : w.sidecar.inference.Recalls
  resumed : w.heard → lastCommand w.sidecar.inference.node.dispatched = some .resume

/-- **Step lemma**. -/
theorem Resumes.step (h : w.Resumes) (hinv : w.Inv)
    (htold : w.sidecar.inference.node.Told w.sidecar.inference.failed) (hok : w.Prompt p l)
    (hstep : w.step cfg failsafeTimeout l = some v) : v.Resumes := by
  obtain ⟨s, hs, rfl⟩ := step_eq_some.mp hstep
  obtain ⟨action, sched, rfl, hsched, rfl⟩ | ⟨i, ok, inference, rfl, hrun, rfl⟩ |
    ⟨rfl, hphase, rfl⟩ | ⟨rfl, hphase, rfl⟩ | ⟨answer, a, rfl, hend⟩ := Sidecar.step_cases hs
  · exact ⟨h.recalls, fun hh => h.resumed (Bool.and_eq_true_iff.mp hh).1⟩
  · obtain ⟨d, hd, -, rfl⟩ := ListenerRun.finish_eq_some.mp hrun
    refine ⟨h.recalls, fun hh => ?_⟩
    exact (lastCommand_set hd).trans (h.resumed hh)
  · exact ⟨h.recalls, h.resumed⟩
  · exact ⟨h.recalls, h.resumed⟩
  · obtain ⟨g, rfl, hphase, rfl⟩ | ⟨rfl, -, -⟩ := hend
    · obtain rfl : a = .succeeded := hok
      refine ⟨h.recalls.poll, fun hh => ?_⟩
      have hfresh : w.fresh := by
        obtain hh | hfresh := Bool.or_eq_true_iff.mp hh
        · exact hinv.next hh (by simp [hphase])
        · exact hfresh
      obtain rfl := hinv.read g hphase hfresh
      exact ListenerRun.lastCommand_of_available h.recalls htold
    · exact hok.elim

/-- **Run lemma**. -/
theorem resumes_of_prompt (hx : (Sidecar.system cfg failsafeTimeout).Reach System.anyStep x)
    (hrecalls : x.inference.Recalls) (h : (system cfg failsafeTimeout x).Reach (Prompt p) w) :
    w.Resumes := by
  refine h.invariant_of (I := Resumes)
    (J := fun u => (system cfg failsafeTimeout x).Reach (Prompt p) u) (fun _ hu => hu) ?_
    fun u l v hu hw hok hstep => hw.step (inv_of_reach hu) (told_of_reach hx hu) hok hstep
  rintro u rfl
  exact ⟨hrecalls, Bool.noConfusion⟩

/-- AVAILABLE for longer than one sleep and two polls was heard. -/
theorem heard_of_prompt (hx : (Sidecar.system cfg failsafeTimeout).Reach System.anyStep x)
    (hpace : x.InPace p) (h : (system cfg failsafeTimeout x).Reach (Prompt p) w)
    (hsince : w.availableSince = some since)
    (hlong : max since x.scheduler.now + p.interval + 2 * p.longest < w.sidecar.scheduler.now) :
    w.heard :=
  Poller.heard_of_reach (sane_start hx) (Sidecar.inPace_poller.mpr hpace)
    (refines_poller.reach h) hsince hlong

/-- **Resumed in time**: from any state on in which no failed pause is forgotten, polls keep their
pace and are answered and pauses succeed, once the scheduler is AVAILABLE for longer than one
sleep and two polls the last command of the engine is a resume. -/
theorem resumed_of_prompt (hx : (Sidecar.system cfg failsafeTimeout).Reach System.anyStep x)
    (hrecalls : x.inference.Recalls) (hpace : x.InPace p)
    (h : (system cfg failsafeTimeout x).Reach (Prompt p) w) (hsince : w.availableSince = some since)
    (hlong : max since x.scheduler.now + p.interval + 2 * p.longest < w.sidecar.scheduler.now) :
    lastCommand w.sidecar.inference.node.dispatched = some .resume := by
  exact (resumes_of_prompt hx hrecalls h).resumed (heard_of_prompt hx hpace h hsince hlong)

/-- Lotus reports no sectors, so that the state machine says AVAILABLE; a poll comes after a
second. -/
def availablePolls : List SidecarLabel :=
  List.replicate 7 (.scheduler (.poll ⟨some (Scheduler.deadline0At 0), fun _ => some 0⟩)) ++
    [.scheduler (.elapse 1000), .request, .read, .answer .succeeded, .scheduler (.elapse 1000)]

/-- Two seconds after the start the engine was told to resume. -/
theorem resumed_availablePolls :
    ∃ w, (system ⟨Scheduler.defaultPolicy, true, 0⟩ 60000 {}).Reach (Prompt ⟨1000, 0⟩) w ∧
      w.sidecar.scheduler.now = 2000 ∧
      lastCommand w.sidecar.inference.node.dispatched = some .resume := by
  have hfinal : ((system ⟨Scheduler.defaultPolicy, true, 0⟩ 60000 {}).execGuarded
      (Prompt ⟨1000, 0⟩) (start {}) availablePolls).any
      (fun w => w.availableSince == some 0 && w.sidecar.scheduler.now == 2000) = true := by
    decide +kernel
  obtain ⟨w, hrun, hw⟩ := (Option.any_eq_true _ _).mp hfinal
  obtain ⟨hsince, hnow⟩ := Bool.and_eq_true_iff.mp hw
  rw [beq_iff_eq] at hsince hnow
  have hreach := System.Reach.execGuarded (.init rfl) hrun
  refine ⟨w, hreach, hnow,
    resumed_of_prompt (.init rfl) Bool.noConfusion (Nat.zero_le _) hreach hsince ?_⟩
  show 1000 < w.sidecar.scheduler.now
  omega

/-- **AVAILABLE throughout**: a run of the sidecar in which the scheduler is AVAILABLE, with what
neither process keeps. -/
theorem exists_of_available {s : Sidecar}
    (h : ((Sidecar.system cfg failsafeTimeout).startingAt x).Reach
      (fun s l => s.Prompt p l ∧ s.isAvailable) s) :
    ∃ w, (system cfg failsafeTimeout x).Reach (Prompt p) w ∧ w.sidecar = s ∧
      (s.isAvailable → w.availableSince = some x.scheduler.now) := by
  induction h with
  | init hs =>
    obtain rfl := hs
    exact ⟨start _, .init rfl, rfl, fun hav => if_pos hav⟩
  | @step s l t _ hok hstep ih =>
    obtain ⟨w, hw, rfl, hsince⟩ := ih
    have hnext : w.step cfg failsafeTimeout l = some (w.watch t l) :=
      step_eq_some.mpr ⟨t, hstep, rfl⟩
    refine ⟨_, hw.step hok.1 hnext, watch_sidecar t l, fun hav => ?_⟩
    have hsince := hsince hok.2
    cases l with
    | scheduler action => simp [watch, hav, hsince]
    | _ => exact hsince

end Resuming

namespace Sidecar

variable {cfg : Scheduler.Config} {failsafeTimeout : Nat} {p : Pace} {s : Sidecar}

/-- From the start on no failed pause is forgotten, when pauses succeed. -/
theorem recalls_of_reach (h : (system cfg failsafeTimeout).Reach (Prompt p) s) :
    s.inference.Recalls := by
  refine h.invariant (I := fun s => s.inference.Recalls) ?_ fun s l t hs hok hstep => ?_
  · rintro s rfl
    exact Bool.noConfusion
  · obtain ⟨action, sched, rfl, -, rfl⟩ | ⟨i, ok, inference, rfl, hrun, rfl⟩ | ⟨rfl, -, rfl⟩ |
      ⟨rfl, -, rfl⟩ | ⟨answer, a, rfl, hend⟩ := step_cases hstep
    · exact hs
    · obtain ⟨d, hd, -, rfl⟩ := ListenerRun.finish_eq_some.mp hrun
      exact hs
    · exact hs
    · exact hs
    · obtain ⟨g, rfl, -, rfl⟩ | ⟨rfl, -, -⟩ := hend
      · obtain rfl : a = .succeeded := hok
        exact hs.poll
      · exact hok.elim

theorem inPace_of_reach (h : (system cfg failsafeTimeout).Reach (Prompt p) s) : s.InPace p := by
  have hempty : (system cfg failsafeTimeout).Reach System.anyStep {} := .init rfl
  have hstart : (({} : Sidecar).poller).InPace p.interval p.longest := Nat.zero_le _
  have hreach : ((system cfg failsafeTimeout).startingAt {}).Reach (Prompt p) s := h
  exact inPace_poller.mp (Poller.inTime_of_reach (sane_of_reach hempty) hstart
    ((refines_poller.startingAt {}).reach hreach)).inPace

end Sidecar

end OpenModel
