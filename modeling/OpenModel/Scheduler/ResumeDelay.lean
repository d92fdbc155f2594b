import OpenModel.Scheduler.ProvingSchedule

/-!
# The resume delay after a window closes

While a window is open, the decision promises the next change for some time after it closes
(`resume_delay_after_close_sec`). The decision at that time is made by a later poll, which sees
the next deadline and does not know of the promise. Runs of polls without proof detection, wins
or Lotus failures, with a record of what has been promised.

## Main results

- `DelayRun.quiet_of_reach`: what a poll finds in such a run
- `DelayRun.keepsDelay_iff`: when a poll keeps the promise
-/

namespace OpenModel.Scheduler

/-- The clock at a poll, in seconds, and the sector counts that Lotus reports. -/
structure TimedPoll where
  time : Int
  sectors : Nat → Nat

/-- The epoch that the clock is in. -/
def TimedPoll.epoch (poll : TimedPoll) : Int := poll.time / epochDuration

/-- The scheduler between two polls. The GPU is owed to the chain until `owed`, by the windows
that were open at earlier polls. -/
structure DelayRun where
  cells : Cells
  owed : Int
  lastTime : Int

namespace DelayRun

/-- A window that is open on a deadline with sectors owes the GPU to the chain until the delay
after its end is over. -/
def owedAfter (cfg : Config) (S : ProvingSchedule) (poll : TimedPoll) (owed : Int) : Int :=
  let info := S.infoAt poll.epoch
  if info.isOpen = true ∧ 0 < poll.sectors info.index then
    max owed (info.closesAt * epochDuration + cfg.policy.windowPost.resumeDelayAfterCloseSec)
  else owed

/-- Polls in the order of time, started without a win, a proof monitor or a recorded proof. -/
def system (cfg : Config) (S : ProvingSchedule) : Transition.System DelayRun TimedPoll where
  init s := s.cells.proofMonitorActive = false ∧ s.cells.completedProofs = ∅ ∧
    s.cells.current ≠ .winningPost ∧ s.cells.sectorCache = ⟨∅, 0⟩ ∧ s.owed ≤ s.lastTime
  step s poll :=
    if s.lastTime ≤ poll.time then
      some ⟨(checkWindowPost cfg s.cells (S.answersAt poll.sectors poll.epoch)).1,
        owedAfter cfg S poll s.owed, poll.time⟩
    else none

/-- A poll before the end of the delay, which left `t`, did not decide AVAILABLE. -/
def KeepsDelay (s : DelayRun) (poll : TimedPoll) (t : DelayRun) : Prop :=
  poll.time < s.owed → t.cells.current ≠ .available

/-- The first deadline with sectors by the counts that the poll goes by, from the current one on,
is open or opens within one of the thresholds. -/
def NextIsNear (cfg : Config) (S : ProvingSchedule) (s : DelayRun) (poll : TimedPoll) : Prop :=
  ∃ q, S.IsFirst (s.cells.sectorCache.reads cfg.policy (S.infoAt poll.epoch) poll.sectors)
      (S.current poll.epoch) q ∧
    ((S.deadline q poll.epoch).isOpen = true ∨
      (S.deadline q poll.epoch).secondsUntilOpen ≤
        max cfg.policy.windowPost.hardStopThresholdSec
          cfg.policy.windowPost.gracefulYieldThresholdSec)

/-- What a poll finds in such a run. -/
structure Quiet (S : ProvingSchedule) (c : Cells) : Prop where
  monitor : c.proofMonitorActive = false
  completed : c.completedProofs = ∅
  current : c.current ≠ .winningPost
  keyed : c.sectorCache.Keyed S.deadlines

variable {cfg : Config} {S : ProvingSchedule} {c : Cells} {s t : DelayRun} {poll : TimedPoll}

/-- Without proof detection and recorded proofs the policy decides alone. -/
theorem evaluateAndApply_of_quiet (hoff : cfg.policy.windowPost.proofDetectionEnabled = false)
    (hc : c.completedProofs = ∅) (info : DeadlineInfo) :
    evaluateAndApply cfg c info =
      (c.applyDecisionUnlessWinning (cfg.policy.evaluateWindowPost info), none) := by
  simp [evaluateAndApply, skipsYield, hc, Config.launchesMonitor, hoff]

theorem quiet_applyDecision {d : YieldDecision} (hd : d.state ≠ .winningPost) (h : Quiet S c) :
    Quiet S (c.applyDecisionUnlessWinning d) := by
  obtain ⟨subscribers, heq⟩ := Cells.applyDecisionUnlessWinning_eq h.current d
  rw [heq]
  exact ⟨h.monitor, h.completed, hd, h.keyed⟩

/-- The cells with the counts that a poll fetches. -/
theorem Quiet.fetched (h : Quiet S c) (cfg : Config) (sectors : Nat → Nat) (e : Int) :
    Quiet S { c with sectorCache := ProvingSchedule.cacheAfter cfg S sectors e c } :=
  ⟨h.monitor, h.completed, h.current, ProvingSchedule.keyed_cacheAfter h.keyed⟩

/-- **Step lemma**: a poll leaves a quiet state. -/
theorem Quiet.polled (h : Quiet S c) (hoff : cfg.policy.windowPost.proofDetectionEnabled = false)
    (sectors : Nat → Nat) (e : Int) :
    Quiet S (checkWindowPost cfg c (S.answersAt sectors e)).1 := by
  have hcache := h.fetched cfg sectors e
  obtain ⟨q, -, hpoll⟩ | ⟨-, hpoll⟩ :=
    ProvingSchedule.poll_cases h.monitor h.current h.keyed cfg sectors e
  · rw [hpoll, evaluateAndApply_of_quiet hoff hcache.completed]
    exact quiet_applyDecision (YieldPolicy.evaluateWindowPost_state_ne_winningPost _ _) hcache
  · rw [hpoll]
    exact quiet_applyDecision (by decide) hcache

/-- **Run lemma**. -/
theorem quiet_of_reach (hoff : cfg.policy.windowPost.proofDetectionEnabled = false)
    (h : (system cfg S).Reach Transition.System.anyStep s) : Quiet S s.cells := by
  refine h.invariant (I := fun s => Quiet S s.cells) ?_ ?_
  · rintro s ⟨hmonitor, hcompleted, hcurrent, hcache, -⟩
    exact ⟨hmonitor, hcompleted, hcurrent, hcache ▸ SectorCache.keyed_empty _ _⟩
  · intro s poll t hs _ hstep
    simp only [system, Option.ite_none_right_eq_some, Option.some.injEq] at hstep
    rw [← hstep.2]
    exact hs.polled hoff _ _

/-- A poll decides AVAILABLE unless the next deadline with sectors is near. -/
theorem Quiet.available_iff (h : Quiet S c)
    (hoff : cfg.policy.windowPost.proofDetectionEnabled = false) (sectors : Nat → Nat) (e : Int) :
    (checkWindowPost cfg c (S.answersAt sectors e)).1.current = .available ↔
      ∀ q, S.IsFirst (c.sectorCache.reads cfg.policy (S.infoAt e) sectors) (S.current e) q →
        (cfg.policy.evaluateWindowPost (S.deadline q e)).state = .available := by
  obtain ⟨q, hfirst, hpoll⟩ | ⟨hz, hpoll⟩ :=
    ProvingSchedule.poll_cases h.monitor h.current h.keyed cfg sectors e
  · rw [hpoll, evaluateAndApply_of_quiet hoff (h.fetched cfg sectors e).completed,
      Cells.applyDecisionUnlessWinning_current, if_neg h.current]
    constructor
    · intro hq r hr
      rwa [hr.unique hfirst]
    · intro hall
      exact hall q hfirst
  · rw [hpoll, Cells.applyDecisionUnlessWinning_current, if_neg h.current]
    constructor
    · rintro - q ⟨-, hpos, -⟩
      rw [hz _ ProvingSchedule.indexOf_lt] at hpos
      omega
    · exact fun _ => rfl

/-- **Exact condition**: without proof detection, in every run, a poll before the end of a delay
keeps it if and only if the first deadline with sectors from the current one on is open or near.
The delay itself plays no part. -/
theorem keepsDelay_iff (hoff : cfg.policy.windowPost.proofDetectionEnabled = false)
    (hr : (system cfg S).Reach Transition.System.anyStep s)
    (hstep : (system cfg S).step s poll = some t) :
    KeepsDelay s poll t ↔ (poll.time < s.owed → NextIsNear cfg S s poll) := by
  have hquiet := quiet_of_reach hoff hr
  simp only [system, Option.ite_none_right_eq_some, Option.some.injEq] at hstep
  obtain ⟨-, rfl⟩ := hstep
  refine forall_congr' fun _ => ?_
  rw [Ne, hquiet.available_iff hoff, not_forall]
  refine exists_congr fun q => ?_
  rw [Classical.not_imp]
  refine and_congr_right fun _ => ?_
  rw [YieldPolicy.evaluateWindowPost_state_eq_available_iff]
  cases (S.deadline q poll.epoch).isOpen <;> simp
  omega

/-- A configuration without proof detection; the delay after a window is 60 seconds. -/
def detectionOff : Config where
  policy := { defaultPolicy with
    windowPost := { defaultPolicy.windowPost with proofDetectionEnabled := false } }
  proofMonitor := false

/-- A poll at which only deadline 0 has sectors. -/
def firstOnlyAt (time : Int) : TimedPoll := ⟨time, fun i => if i = 0 then 8 else 0⟩

/-- The run before its first poll. -/
def started : DelayRun := ⟨{}, 0, 0⟩

/-- What a first poll at epoch 59 leaves: the GPU is owed to the chain until second 1860. -/
def polledInWindow : DelayRun where
  cells := (checkWindowPost detectionOff {} (ProvingSchedule.chain.answersAt (firstOnlyAt 1770).sectors 59)).1
  owed := 1860
  lastTime := 1770

theorem reach_polledInWindow :
    (system detectionOff ProvingSchedule.chain).Reach Transition.System.anyStep polledInWindow := by
  have hinit : (system detectionOff ProvingSchedule.chain).init started :=
    ⟨rfl, rfl, by decide, rfl, Int.le_refl _⟩
  exact .step (l := firstOnlyAt 1770) (.init hinit) trivial rfl

/-- A poll at which deadlines 0 and 1 have sectors. -/
def firstTwoAt (time : Int) : TimedPoll := ⟨time, fun i => if i < 2 then 8 else 0⟩

/-- What a first poll at epoch 59 leaves when deadline 1 has sectors too. -/
def polledBeforeNext : DelayRun where
  cells := (checkWindowPost detectionOff {} (ProvingSchedule.chain.answersAt (firstTwoAt 1770).sectors 59)).1
  owed := 1860
  lastTime := 1770

/-- A poll half a minute after the window, before the end of its delay, sees the next window open
and yields. -/
theorem keepsDelay_nextOpen :
    ∃ t, (system detectionOff ProvingSchedule.chain).step polledBeforeNext (firstTwoAt 1830) = some t ∧
      (1800 : Int) ≤ (firstTwoAt 1830).time ∧ (firstTwoAt 1830).time < polledBeforeNext.owed ∧
      KeepsDelay polledBeforeNext (firstTwoAt 1830) t := by
  have hinit : (system detectionOff ProvingSchedule.chain).init started :=
    ⟨rfl, rfl, by decide, rfl, Int.le_refl _⟩
  have hreach : (system detectionOff ProvingSchedule.chain).Reach Transition.System.anyStep
      polledBeforeNext :=
    .step (l := firstTwoAt 1770) (.init hinit) trivial rfl
  refine ⟨_, rfl, by decide, by decide, (keepsDelay_iff rfl hreach rfl).mpr fun _ => ?_⟩
  refine ⟨1, ⟨by decide, by decide +kernel, ?_⟩, .inl (by decide)⟩
  intro r hr hlt
  have hcur : ProvingSchedule.chain.current (firstTwoAt 1830).epoch = 1 := by decide
  omega

/-- At the end of the window, 60 seconds too early, a poll sees deadline 1 and decides
AVAILABLE. -/
theorem polledInWindow_not_keepsDelay :
    (system detectionOff ProvingSchedule.chain).Reach Transition.System.anyStep polledInWindow ∧
      ∃ t, (system detectionOff ProvingSchedule.chain).step polledInWindow (firstOnlyAt 1800) = some t ∧
        ¬ KeepsDelay polledInWindow (firstOnlyAt 1800) t :=
  ⟨reach_polledInWindow, _, rfl, fun h => h (by decide) (by decide +kernel)⟩

end DelayRun

end OpenModel.Scheduler
