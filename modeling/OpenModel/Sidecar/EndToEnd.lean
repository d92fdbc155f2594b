import OpenModel.Sidecar.System

/-!
# A demand reaches the engine

As long as the scheduler demands the GPU, every poll that begins in the demand reads a yield
state, since the state machine says nothing else until the poll ends. So a resume can come only
from the poll that was in flight when the demand began, and once a poll that began in the
demand was answered and left no failed pause behind, the GPU stays paused until the demand is
over, whatever other polls do and whichever goroutines of the scheduler move.

## Main results

- `Sidecar.inv_of_reach`: the invariant of the poll in flight
- `Sidecar.applied_of_reach`: a demand that was heard is applied
- `Sidecar.resumes_of_reach`: one stale resume at most
-/

namespace OpenModel

open SchedulerClient
open Transition (System)

-- ════════════════════════════════════════════════════════════════════════
-- One poll of the listener
-- ════════════════════════════════════════════════════════════════════════

namespace SchedulerClient.Node

variable {s : Node} {state : ScheduleState} {a : Attempt} {failsafeTimeout : Nat}

/-- **What a poll dispatches**: nothing or one command, which is a resume only when the poll
received AVAILABLE. -/
theorem poll_dispatched (s : Node) (failsafeTimeout : Nat) (answer : Option ScheduleState)
    (a : Attempt) :
    (s.poll failsafeTimeout answer a).dispatched = s.dispatched ∨
      ∃ d, (s.poll failsafeTimeout answer a).dispatched = s.dispatched ++ [d] ∧
        (d.command.isPause = false → answer = some gpuStateAvailable) ∧
        (d.command.isPause = true → d.ended = a.ended) := by
  cases answer with
  | none =>
    by_cases hdue : s.FailsafeDue failsafeTimeout
    · exact .inr ⟨⟨.pause .immediate, a.ended⟩, congrArg Node.dispatched (pollFailed_of_due hdue),
        by simp [EngineCommand.isPause], fun _ => rfl⟩
    · have heq := congrArg Node.dispatched (pollFailed_of_not_due (a := a) hdue)
      exact .inl heq
  | some state =>
    show (s.pollAnswered state a).dispatched = s.dispatched ∨
      ∃ d, (s.pollAnswered state a).dispatched = s.dispatched ++ [d] ∧ _ ∧ _
    unfold pollAnswered
    split_ifs
    · exact .inl rfl
    · obtain ⟨rfl, heq⟩ | ⟨-, heq⟩ | ⟨-, -, heq⟩ :=
        applyThen_cases { s with listener := s.settled } state a
          fun l => { l with lastState := some state }
      · exact .inr ⟨{ command := .resume }, congrArg Node.dispatched heq, fun _ => rfl,
          by simp [EngineCommand.isPause]⟩
      · exact .inr ⟨⟨.pause (urgency state), a.ended⟩, congrArg Node.dispatched heq,
          by simp [EngineCommand.isPause], fun _ => rfl⟩
      · have hsame := congrArg Node.dispatched heq
        exact .inl hsame

/-- A poll that does not receive AVAILABLE leaves an applied pause applied. -/
theorem applied_poll {answer : Option ScheduleState} (h : Applied s.dispatched)
    (hanswer : answer ≠ some gpuStateAvailable) :
    Applied (s.poll failsafeTimeout answer a).dispatched := by
  obtain heq | ⟨d, heq, hresume, -⟩ := s.poll_dispatched failsafeTimeout answer a
  · rwa [heq]
  · rw [heq]
    cases hpause : d.command.isPause with
    | true => exact h.append hpause
    | false => exact absurd (hresume hpause) hanswer

/-- A poll that receives a yield state applies it, unless its pause fails. -/
theorem applied_of_yield (failsafeTimeout : Nat) (h : s.YieldInv) (hy : state ∈ yieldStates)
    (hkept : a = .succeeded ∨
      (s.poll failsafeTimeout (some state) a).dispatched = s.dispatched) :
    Applied (s.poll failsafeTimeout (some state) a).dispatched := by
  by_cases hstored : some state = s.settled.lastState
  · have hlast : s.listener.lastState = some state := by
      obtain hs | hs := s.lastState_settled
      · rw [← hs, ← hstored]
      · rw [hs] at hstored
        cases hstored
    have heq : (s.poll failsafeTimeout (some state) a).dispatched = s.dispatched := by
      show (s.pollAnswered state a).dispatched = s.dispatched
      simp [pollAnswered, hstored]
    rw [heq]
    exact h state hy hlast
  · have heq : (s.poll failsafeTimeout (some state) a).dispatched =
        s.dispatched ++ [⟨.pause (urgency state), a.ended⟩] := by
      show (s.pollAnswered state a).dispatched = _
      simp only [pollAnswered, hstored, if_false, applyThen_of_yield hy]
    obtain rfl | hsame := hkept
    · rw [heq]
      exact Applied.append_succeeded
    · simp [heq] at hsame

end SchedulerClient.Node

-- ════════════════════════════════════════════════════════════════════════
-- The poll in flight
-- ════════════════════════════════════════════════════════════════════════

namespace Sidecar

open Scheduler (GpuState Config Action)

variable {cfg : Config} {failsafeTimeout : Nat} {s t : Sidecar} {l : SidecarLabel}

/-- A poll dispatches one resume at most, and none unless it received AVAILABLE. -/
theorem resumesAfter_poll (failsafeTimeout : Nat) (run : ListenerRun)
    (answer : Option ScheduleState) (a : Attempt) :
    resumesAfter run.node.dispatched.length (run.poll failsafeTimeout answer a).node.dispatched ≤
      if answer = some gpuStateAvailable then 1 else 0 := by
  have hnode : (run.poll failsafeTimeout answer a).node = run.node.poll failsafeTimeout answer a :=
    rfl
  rw [hnode]
  obtain heq | ⟨d, heq, hresume, -⟩ := run.node.poll_dispatched failsafeTimeout answer a
  · simp [heq, resumesAfter]
  · cases hpause : d.command.isPause with
    | true => simp [heq, resumesAfter, hpause]
    | false =>
      rw [if_pos (hresume hpause), heq]
      simp [resumesAfter, hpause]

/-- The invariant of the poll in flight and of the demand that is on. -/
structure Inv (s : Sidecar) : Prop where
  demanded : s.demandedSince.isSome = s.scheduler.cells.current.demands
  fresh : s.fresh → s.demandedSince.isSome ∧ s.phase ≠ .sleeping
  /-- a poll that began in the demand has read it -/
  read : ∀ g, s.phase = .answered g → s.fresh → g.demands
  heard : s.heard → s.demandedSince.isSome ∧ Applied s.inference.node.dispatched
  /-- polls come one after the other -/
  next : s.heard → s.phase ≠ .sleeping → s.fresh
  resumes : s.resumes ≤ 1
  quiet : s.demandedSince = none → s.resumes = 0
  /-- the only poll that did not begin in the demand is still in flight -/
  stale : s.phase ≠ .sleeping → s.fresh = false → s.resumes = 0

theorem inv_init : ({} : Sidecar).Inv where
  demanded := rfl
  fresh := by simp
  read := by simp
  heard := by simp
  next := by simp
  resumes := by simp
  quiet := by simp
  stale := by simp

namespace Inv

/-- The scheduler moves, and time passes. -/
theorem scheduler (h : s.Inv) (sched : Scheduler.Sched) (ms : Nat) :
    ({ s.watch sched with inference := sleep s.inference ms } : Sidecar).Inv := by
  unfold watch
  cases hd : sched.cells.current.demands with
  | true =>
    exact
      { demanded := hd.symm
        fresh := fun hf => ⟨rfl, (h.fresh hf).2⟩
        read := h.read
        heard := fun hh => ⟨rfl, (h.heard hh).2⟩
        next := h.next
        resumes := h.resumes
        quiet := fun hn => absurd hn (by simp)
        stale := h.stale }
  | false =>
    exact
      { demanded := hd.symm
        fresh := by simp
        read := by simp
        heard := by simp
        next := by simp
        resumes := by simp
        quiet := by simp
        stale := by simp }

/-- A command ends. -/
theorem finish (h : s.Inv) {i : Nat} {ok : Bool} {inference : ListenerRun}
    (hrun : s.inference.step failsafeTimeout (.finish i ok) = some inference) :
    ({ s with inference } : Sidecar).Inv := by
  obtain ⟨d, hd, hrunning, rfl⟩ := ListenerRun.finish_eq_some.mp hrun
  exact { h with heard := fun hh => ⟨(h.heard hh).1, (h.heard hh).2.finish hd hrunning⟩ }

/-- A poll begins. -/
theorem request (h : s.Inv) :
    ({ s with
      phase := .requested
      since := s.scheduler.now
      fresh := s.demandedSince.isSome } : Sidecar).Inv :=
  { h with
    fresh := fun hf => ⟨hf, nofun⟩
    read := nofun
    next := fun hh _ => (h.heard hh).1
    stale := fun _ hf => h.quiet (by simpa using hf) }

/-- The handler reads the state machine. -/
theorem handle (h : s.Inv) (hphase : s.phase = .requested) :
    ({ s with phase := .answered s.scheduler.cells.current } : Sidecar).Inv :=
  { h with
    fresh := fun hf => ⟨(h.fresh hf).1, nofun⟩
    read := by
      rintro g hg hf
      cases hg
      exact h.demanded ▸ (h.fresh hf).1
    next := fun hh _ => h.next hh (by simp [hphase])
    stale := fun _ hf => h.stale (by simp [hphase]) hf }

/-- The poll in flight ends: it received a state, which it has read in the demand if it began
in it, or nothing. -/
theorem endPoll (h : s.Inv) (hy : s.inference.node.YieldInv) {answer : Option ScheduleState}
    {a : Attempt} (hphase : s.phase ≠ .sleeping)
    (hanswer : ∀ state, answer = some state → s.fresh → state ∈ yieldStates) :
    (s.endPoll failsafeTimeout answer a).Inv := by
  have hresume (hf : s.fresh) : answer ≠ some gpuStateAvailable := fun hav =>
    Node.available_not_mem_yieldStates (hanswer _ hav hf)
  have hcount := resumesAfter_poll failsafeTimeout s.inference answer a
  refine
    { demanded := h.demanded
      fresh := nofun
      read := nofun
      heard := fun hh => ?_
      next := fun _ hp => absurd rfl hp
      resumes := ?_
      quiet := fun hn => ?_
      stale := fun hp _ => absurd rfl hp }
  · obtain hh | ⟨⟨hf, hsome⟩, hkept⟩ : s.heard ∨ (s.fresh ∧ answer.isSome) ∧ (a = .succeeded ∨
        (s.inference.poll failsafeTimeout answer a).node.dispatched =
          s.inference.node.dispatched) := by
      simpa [Sidecar.endPoll] using hh
    · exact ⟨(h.heard hh).1, Node.applied_poll (h.heard hh).2 (hresume (h.next hh hphase))⟩
    · obtain ⟨state, rfl⟩ := Option.isSome_iff_exists.mp hsome
      exact ⟨(h.fresh hf).1, Node.applied_of_yield failsafeTimeout hy (hanswer state rfl hf) hkept⟩
  · show (if s.demandedSince.isSome then s.resumes + _ else 0) ≤ 1
    split_ifs
    · cases hf : s.fresh with
      | true =>
        rw [if_neg (hresume hf)] at hcount
        have := h.resumes
        omega
      | false =>
        have hzero := h.stale hphase hf
        split_ifs at hcount <;> omega
    · exact Nat.zero_le 1
  · show (if s.demandedSince.isSome then s.resumes + _ else 0) = 0
    simp [show s.demandedSince = none from hn]

end Inv

/-- **Step lemma**. -/
theorem Inv.step (h : s.Inv) (hy : s.inference.node.YieldInv)
    (hstep : s.step cfg failsafeTimeout l = some t) : t.Inv := by
  obtain ⟨action, sched, -, -, rfl⟩ | ⟨i, ok, inference, -, hrun, rfl⟩ | ⟨-, -, rfl⟩ |
    ⟨-, hphase, rfl⟩ | ⟨answer, a, rfl, hend⟩ := step_cases hstep
  · exact h.scheduler sched action.elapsed
  · exact h.finish hrun
  · exact h.request
  · exact h.handle hphase
  · obtain ⟨g, -, hphase, rfl⟩ | ⟨-, hphase, rfl⟩ := hend
    · refine h.endPoll hy (by simp [hphase]) fun state hstate hf => ?_
      obtain rfl := Option.some.inj hstate
      exact GpuState.number_mem_yieldStates.mpr (h.read g hphase hf)
    · exact h.endPoll hy hphase nofun

theorem yieldInv_of_reach (h : (system cfg failsafeTimeout).Reach System.anyStep s) :
    s.inference.node.YieldInv :=
  ListenerRun.yieldInv_of_reach (refines_listener.reach h)

/-- **Run lemma**: the invariant holds in every reachable state. -/
theorem inv_of_reach (h : (system cfg failsafeTimeout).Reach System.anyStep s) : s.Inv :=
  h.invariant_of (fun _ => yieldInv_of_reach) (fun _ hs => hs ▸ inv_init)
    fun _ _ _ hy hs _ hstep => hs.step hy hstep

-- ════════════════════════════════════════════════════════════════════════
-- End to end
-- ════════════════════════════════════════════════════════════════════════

/-- **A demand that was heard is applied**: since a poll that began in the demand was answered
and left no failed pause behind, the last pause that succeeded is later than every resume, and
it stays so for as long as the scheduler demands the GPU. -/
theorem applied_of_reach (h : (system cfg failsafeTimeout).Reach System.anyStep s)
    (hheard : s.heard) :
    s.scheduler.cells.current.demands ∧ Applied s.inference.node.dispatched := by
  have hinv := inv_of_reach h
  obtain ⟨hdemanded, happlied⟩ := hinv.heard hheard
  exact ⟨hinv.demanded ▸ hdemanded, happlied⟩

/-- A block is won, and the next poll hears of it. -/
def firstPoll : List SidecarLabel :=
  [.scheduler (.win "won"), .scheduler (.trigger 0), .request, .read, .answer .succeeded]

/-- The engine is paused for the block. -/
theorem applied_firstPoll :
    ∃ s, (system ⟨Scheduler.defaultPolicy, true, 0⟩ 60000).Reach System.anyStep s ∧ s.heard ∧
      s.scheduler.cells.current.demands ∧ Applied s.inference.node.dispatched := by
  have hfinal : ((system ⟨Scheduler.defaultPolicy, true, 0⟩ 60000).exec {} firstPoll).any
      (fun s => s.heard) = true := by
    decide +kernel
  obtain ⟨s, hrun, hheard⟩ := (Option.any_eq_true _ _).mp hfinal
  have hreach := System.reach_of_exec rfl hrun
  exact ⟨s, hreach, hheard, applied_of_reach hreach hheard⟩

/-- **Stale resumes**: in a demand at most one resume is dispatched, and none while a poll
that began in it is in flight or once such a poll was heard. -/
theorem resumes_of_reach (h : (system cfg failsafeTimeout).Reach System.anyStep s) :
    s.resumes ≤ 1 ∧ ∀ t l, (s.fresh ∨ s.heard) → s.step cfg failsafeTimeout l = some t →
      t.scheduler.cells.current.demands → t.resumes = s.resumes := by
  have hinv := inv_of_reach h
  refine ⟨hinv.resumes, fun t l hpoll hstep hdemands => ?_⟩
  obtain ⟨action, sched, -, -, rfl⟩ | ⟨i, ok, inference, -, hrun, rfl⟩ | ⟨-, -, rfl⟩ |
    ⟨-, hphase, rfl⟩ | ⟨answer, a, rfl, hend⟩ := step_cases hstep
  · have hd : sched.cells.current.demands := by simpa using hdemands
    simp [watch, hd]
  · rfl
  · rfl
  · rfl
  · have hflight : s.phase ≠ .sleeping := by
      obtain ⟨g, -, hphase, -⟩ | ⟨-, hphase, -⟩ := hend
      · simp [hphase]
      · exact hphase
    have hf : s.fresh := hpoll.elim id fun hh => hinv.next hh hflight
    have hne : answer ≠ some gpuStateAvailable := by
      obtain ⟨g, -, hphase, rfl⟩ | ⟨-, -, rfl⟩ := hend
      · intro hav
        have hyield := GpuState.number_mem_yieldStates.mpr (hinv.read g hphase hf)
        exact Node.available_not_mem_yieldStates (Option.some.inj hav ▸ hyield)
      · nofun
    have hcount := resumesAfter_poll failsafeTimeout s.inference answer a
    rw [if_neg hne] at hcount
    show (if s.demandedSince.isSome then s.resumes + _ else 0) = s.resumes
    rw [if_pos (hinv.fresh hf).1]
    omega

/-- Lotus reports no sectors, so that the state machine says AVAILABLE; it is read, and then a
block is won. -/
def staleAnswer : List SidecarLabel :=
  List.replicate 7 (.scheduler (.poll ⟨some (Scheduler.deadline0At 0), fun _ => some 0⟩)) ++
    [.request, .read, .scheduler (.win "won"), .scheduler (.trigger 0), .answer .succeeded]

/-- The one resume that comes too late. -/
theorem resumes_staleAnswer :
    ∃ s, (system ⟨Scheduler.defaultPolicy, true, 0⟩ 60000).Reach System.anyStep s ∧
      s.scheduler.cells.current.demands ∧ s.resumes = 1 ∧ s.resumes ≤ 1 := by
  have hfinal : ((system ⟨Scheduler.defaultPolicy, true, 0⟩ 60000).exec {} staleAnswer).any
      (fun s => s.scheduler.cells.current.demands && s.resumes == 1) = true := by
    decide +kernel
  obtain ⟨s, hrun, hs⟩ := (Option.any_eq_true _ _).mp hfinal
  obtain ⟨hdemands, hone⟩ := Bool.and_eq_true_iff.mp hs
  have hreach := System.reach_of_exec rfl hrun
  exact ⟨s, hreach, hdemands, beq_iff_eq.mp hone, (resumes_of_reach hreach).1⟩

end Sidecar

end OpenModel
