import OpenModel.Scheduler.ProofMonitor

/-!
# The two resumes and the next deadline

Two goroutines give the GPU back to inference: the resume timer of a win and a proof
monitor whose wait is over. Neither evaluates a deadline again before it writes
AVAILABLE. What a poll would decide at that moment is `Cells.demand`; the transition graph
documented at `Transition` has WINNING_POST go to YIELDING or WINDOW_POST when a deadline
is near.

## Main results

- `Cells.checkWindowPost_of_demand`: a poll at that moment would write the demanded state
- `Cells.demand_eq_none_iff`: nothing is demanded when no deadline is due
- `Sched.sparesDemand_iff`: a resume respects the demand exactly when there is none, or
  when the state machine refuses it
-/

namespace OpenModel.Scheduler

open Transition (System)

/-- The yield that the WindowPoSt evaluation demands for the deadline it looks at, unless
its proof is recorded; the fail-safe demands WINDOW_POST when Lotus is unreachable. -/
def Cells.demand (cfg : Config) (c : Cells) (answers : LotusAnswers) : Option GpuState :=
  match answers.deadline with
  | none => if cfg.policy.failSafeOnDisconnect then some .windowPost else none
  | some info =>
    (c.sectorCache.lookAhead cfg.policy info answers.sectors).1.bind fun target =>
      let g := (cfg.policy.evaluateWindowPost target).state
      if g ≠ .available ∧ target.proofKey ∉ c.completedProofs then some g else none

/-- The window is open, or opens within one of the two thresholds. -/
def YieldPolicy.Due (p : YieldPolicy) (info : DeadlineInfo) : Prop :=
  info.isOpen = true ∨ info.secondsUntilOpen ≤ p.windowPost.hardStopThresholdSec ∨
    info.secondsUntilOpen ≤ p.windowPost.gracefulYieldThresholdSec

/-- The deadline to look at is not due or its proof is recorded; without an answer from
Lotus there is no fail-safe. -/
def Cells.NothingDue (cfg : Config) (c : Cells) (answers : LotusAnswers) : Prop :=
  match answers.deadline with
  | none => cfg.policy.failSafeOnDisconnect = false
  | some info => ∀ target,
      (c.sectorCache.lookAhead cfg.policy info answers.sectors).1 = some target →
        target.proofKey ∈ c.completedProofs ∨ ¬ cfg.policy.Due target

namespace YieldPolicy

variable {p : YieldPolicy} {info : DeadlineInfo}

theorem evaluateWindowPost_ne_available_iff :
    (p.evaluateWindowPost info).state ≠ .available ↔ p.Due info := by
  rw [ne_eq, evaluateWindowPost_state_eq_available_iff, Due]
  by_cases ho : info.isOpen = true
  · simp [ho]
  · simp only [ho, Bool.false_eq_true, false_or, true_and]
    omega

end YieldPolicy

namespace Cells

variable {cfg : Config} {c : Cells} {answers : LotusAnswers} {g : GpuState}

/-- A demand is a yield. -/
theorem demand_state (h : c.demand cfg answers = some g) : g = .windowPost ∨ g = .yielding := by
  unfold demand at h
  split at h
  · split_ifs at h
    exact .inl (Option.some.inj h).symm
  · next info hinfo =>
    obtain ⟨target, -, htarget⟩ := Option.bind_eq_some_iff.mp h
    dsimp only at htarget
    split_ifs at htarget with hne
    obtain rfl := Option.some.inj htarget
    rcases cfg.policy.evaluateWindowPost_state_cases target with hs | hs | hs
    · exact absurd hs hne.1
    · exact .inr hs
    · exact .inl hs

/-- **Nothing is demanded** exactly when nothing is due. -/
theorem demand_eq_none_iff : c.demand cfg answers = none ↔ c.NothingDue cfg answers := by
  unfold demand NothingDue
  cases answers.deadline with
  | none => simp
  | some info =>
    simp only [Option.bind_eq_none_iff, ite_eq_right_iff, reduceCtorEq, imp_false]
    refine forall_congr' fun target => imp_congr Iff.rfl ?_
    rw [YieldPolicy.evaluateWindowPost_ne_available_iff]
    tauto

/-- **What a poll would do**: outside WINNING_POST and with no monitor it writes the
demanded state. -/
theorem checkWindowPost_of_demand (hactive : c.proofMonitorActive = false)
    (hwin : c.current ≠ .winningPost) (h : c.demand cfg answers = some g) :
    (checkWindowPost cfg c answers).1.current = g := by
  have hg := demand_state h
  unfold demand at h
  rw [checkWindowPost, if_neg (by simp [hactive]), if_neg hwin]
  cases hd : answers.deadline with
  | none =>
    simp only [hd] at h ⊢
    split_ifs at h with hf
    simp only [hf, if_true]
    obtain rfl := Option.some.inj h
    exact applyDecision_current c failSafeDecision
  | some info =>
    simp only [hd] at h ⊢
    obtain ⟨target, hlook, htarget⟩ := Option.bind_eq_some_iff.mp h
    split_ifs at htarget with hne
    obtain rfl := Option.some.inj htarget
    split
    · next cache hl => simp [hl] at hlook
    · next target' cache hl =>
      rw [hl] at hlook
      obtain rfl : target' = target := Option.some.inj hlook
      exact evaluateAndApply_current_of_not_completed (c := { c with sectorCache := cache }) hwin
        hne.2

end Cells

namespace Sched

variable {cfg : Config} {s t : Sched} {l : Action} {answers : LotusAnswers}

/-- A resume timer is about to write its decision. -/
def TimerWrites (s : Sched) (l : Action) : Prop := ∃ r, Resumes s l r

/-- A proof monitor is about to write its decision. -/
def MonitorWrites (s : Sched) (l : Action) : Prop :=
  ∃ i, l = .monitor i ∧ s.monitors[i]? = some (.applying .transition)

/-- A resume does not leave the GPU AVAILABLE when the chain demands a yield, and a timer
takes WINNING_POST to the demanded state. -/
def SparesDemand (cfg : Config) (s : Sched) (l : Action) (answers : LotusAnswers) : Prop :=
  ∀ t g, Sched.step cfg s l = some t → s.cells.demand cfg answers = some g →
    (TimerWrites s l ∨ MonitorWrites s l → t.cells.current ≠ .available) ∧
      (TimerWrites s l → s.cells.current = .winningPost → t.cells.current = g)

/-- A timer writes AVAILABLE over anything. -/
theorem available_of_timerWrites (cfg : Config) (h : TimerWrites s l) :
    ∃ t, Sched.step cfg s l = some t ∧ t.cells.current = .available := by
  obtain ⟨r, i, rfl, hr, hpc⟩ := h
  refine ⟨_, timerStep_eq_some.mpr ⟨r, _, _, hr, by rw [hpc]; rfl, rfl⟩, ?_⟩
  simp [ApplyPc.step_current, winningResumeDecision, resumeDecision]

/-- A proof monitor writes AVAILABLE over anything but WINNING_POST. -/
theorem current_of_monitorWrites (cfg : Config) (h : MonitorWrites s l) :
    ∃ t, Sched.step cfg s l = some t ∧
      t.cells.current = if s.cells.current = .winningPost then .winningPost else .available := by
  obtain ⟨i, rfl, hm⟩ := h
  refine ⟨_, monitorStep_eq_some.mpr ⟨_, _, _, hm, rfl, rfl⟩, ?_⟩
  by_cases hw : s.cells.current = .winningPost
  · simp [ApplyPc.step_current, hw]
  · simp [ApplyPc.step_current, hw, proofCompleteDecision, resumeDecision]

/-- **Exact condition**: a resume respects the demand if and only if nothing is due at
that moment, or it is a proof monitor's and finds WINNING_POST. -/
theorem sparesDemand_iff (cfg : Config) (s : Sched) (l : Action) (answers : LotusAnswers) :
    SparesDemand cfg s l answers ↔
      (TimerWrites s l → s.cells.NothingDue cfg answers) ∧
        (MonitorWrites s l → s.cells.NothingDue cfg answers ∨ s.cells.current = .winningPost) := by
  constructor
  · intro h
    refine ⟨fun hw => ?_, fun hw => ?_⟩
    · obtain ⟨t, hstep, hcur⟩ := available_of_timerWrites cfg hw
      rw [← Cells.demand_eq_none_iff]
      by_contra hne
      obtain ⟨g, hg⟩ := Option.ne_none_iff_exists'.mp hne
      exact (h t g hstep hg).1 (.inl hw) hcur
    · obtain ⟨t, hstep, hcur⟩ := current_of_monitorWrites cfg hw
      rw [← Cells.demand_eq_none_iff]
      by_contra hne
      obtain ⟨hdemand, hnot⟩ := not_or.mp hne
      obtain ⟨g, hg⟩ := Option.ne_none_iff_exists'.mp hdemand
      rw [if_neg hnot] at hcur
      exact (h t g hstep hg).1 (.inr hw) hcur
  · rintro ⟨htimer, hmonitor⟩ t g hstep hg
    have hdue : ¬ s.cells.NothingDue cfg answers := by
      rw [← Cells.demand_eq_none_iff, hg]
      exact Option.some_ne_none g
    refine ⟨?_, fun hw => absurd (htimer hw) hdue⟩
    rintro (hw | hw)
    · exact absurd (htimer hw) hdue
    · obtain ⟨t', hstep', hcur⟩ := current_of_monitorWrites cfg hw
      obtain rfl := Option.some.inj (hstep.symm.trans hstep')
      rw [hcur, if_pos ((hmonitor hw).resolve_left hdue)]
      decide

/-- The timer of a win ends while deadline 0, whose proof is not recorded, is open. -/
theorem firstWin_not_sparesDemand :
    ∃ s, (system defaultConfig).Reach System.anyStep s ∧
      s.cells.demand defaultConfig openDeadline = some .windowPost ∧
      ¬ SparesDemand defaultConfig s (.timer 0) openDeadline := by
  let s : Sched :=
    { cells := firstWinCells
      now := 5000
      triggers := [⟨"first", .returned 1, some 0⟩]
      timers := [⟨1, .applying .transition⟩] }
  have hrun : (system defaultConfig).exec {} (firstWin ++ [.timer 0, .timer 0]) = some s := rfl
  have hdemand : s.cells.demand defaultConfig openDeadline = some .windowPost := by decide
  refine ⟨s, System.reach_of_exec (system_init _) hrun, hdemand, fun h => ?_⟩
  exact (h _ _ rfl hdemand).1 (.inl ⟨_, 0, rfl, rfl, rfl⟩) rfl

end Sched

end OpenModel.Scheduler
