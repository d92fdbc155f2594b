import OpenModel.Scheduler.State

/-!
# One poll of the scheduler

`checkWindowPost` and `evaluateAndApply` as they run when no other goroutine
interferes, together with the decisions whose content is fixed in the source.
A poll returns the cells it leaves behind and the deadline for which it launched
a proof monitor, if any.
-/

namespace OpenModel.Scheduler

/-- The fields of a `Scheduler` that are fixed before it runs. `proofMonitor` says
whether one is configured; a positive `winningResumeDelay` (in milliseconds)
overrides the policy's resume delay. -/
structure Config where
  policy : YieldPolicy
  proofMonitor : Bool
  winningResumeDelay : Nat := 0
  deriving DecidableEq, Repr

/-- Delay of the WinningPoSt resume timer in milliseconds. -/
def Config.resumeDelay (cfg : Config) : Nat :=
  if 0 < cfg.winningResumeDelay then cfg.winningResumeDelay
  else cfg.policy.winningPost.resumeDelaySec.toNat * 1000

/-- What Lotus answers in one poll; `none` is an error of `GetProvingDeadline`. -/
structure LotusAnswers where
  deadline : Option DeadlineInfo
  sectors : SectorAnswers

/-- The fail-safe decision of `checkWindowPost`. -/
def failSafeDecision : YieldDecision where
  state := .windowPost
  urgency := .immediate
  reason := .lotusDisconnected
  message := "lotus disconnected, fail-safe activated"

/-- A decision that gives the GPU back to inference. -/
def resumeDecision (message : String) : YieldDecision where
  state := .available
  urgency := .normal
  reason := .resume
  message := message

/-- No deadline of the period is known to have sectors. -/
def noSectorsDecision : YieldDecision := resumeDecision "no deadlines with sectors"

/-- The proof of the evaluated deadline is already recorded. -/
def alreadyCompletedDecision : YieldDecision :=
  resumeDecision "proof already completed for this deadline, staying available"

/-- The policy wants to yield for a deadline whose proof is already recorded. -/
def skipsYield (d : YieldDecision) (completed : Finset ProofKey) (info : DeadlineInfo) : Bool :=
  (d.state == .windowPost || d.state == .yielding) && decide (info.proofKey ∈ completed)

/-- `evaluateAndApply` launches a proof monitor after this decision. -/
def Config.launchesMonitor (cfg : Config) (d : YieldDecision) (prevState : GpuState) : Bool :=
  d.state == .windowPost && prevState != .windowPost && cfg.proofMonitor &&
    cfg.policy.windowPost.proofDetectionEnabled

/-- `evaluateAndApply`, uninterrupted. -/
def evaluateAndApply (cfg : Config) (c : Cells) (info : DeadlineInfo) :
    Cells × Option DeadlineInfo :=
  let decision := cfg.policy.evaluateWindowPost info
  if skipsYield decision c.completedProofs info then
    (c.applyDecisionUnlessWinning alreadyCompletedDecision, none)
  else
    let prevState := c.current
    let c' := c.applyDecisionUnlessWinning decision
    if cfg.launchesMonitor decision prevState then
      ({ c' with proofMonitorActive := true }, some info)
    else (c', none)

/-- `checkWindowPost`, uninterrupted. -/
def checkWindowPost (cfg : Config) (c : Cells) (answers : LotusAnswers) :
    Cells × Option DeadlineInfo :=
  if c.proofMonitorActive then (c, none)
  else if c.current = .winningPost then (c, none)
  else
    match answers.deadline with
    | none =>
      if cfg.policy.failSafeOnDisconnect then (c.applyDecision failSafeDecision, none)
      else (c, none)
    | some info =>
      match c.sectorCache.lookAhead cfg.policy info answers.sectors with
      | (none, cache) =>
        (Cells.applyDecisionUnlessWinning { c with sectorCache := cache } noSectorsDecision, none)
      | (some target, cache) => evaluateAndApply cfg { c with sectorCache := cache } target

/-- The state that an evaluation leaves outside WINNING_POST. -/
theorem evaluateAndApply_current {cfg : Config} {c : Cells} {info : DeadlineInfo}
    (h : c.current ≠ .winningPost) :
    (evaluateAndApply cfg c info).1.current =
      if skipsYield (cfg.policy.evaluateWindowPost info) c.completedProofs info then .available
      else (cfg.policy.evaluateWindowPost info).state := by
  unfold evaluateAndApply
  dsimp only
  split
  · simp [Cells.applyDecisionUnlessWinning_current, h, alreadyCompletedDecision, resumeDecision]
  · split <;> simp [Cells.applyDecisionUnlessWinning_current, h]

/-- An evaluation does not touch the sector cache. -/
@[simp] theorem evaluateAndApply_sectorCache (cfg : Config) (c : Cells) (info : DeadlineInfo) :
    (evaluateAndApply cfg c info).1.sectorCache = c.sectorCache := by
  unfold evaluateAndApply
  dsimp only
  split
  · simp
  · split <;> simp

/-- A deadline whose proof is recorded always leaves the GPU AVAILABLE. -/
theorem evaluateAndApply_current_of_completed {cfg : Config} {c : Cells} {info : DeadlineInfo}
    (h : c.current ≠ .winningPost) (hc : info.proofKey ∈ c.completedProofs) :
    (evaluateAndApply cfg c info).1.current = .available := by
  rw [evaluateAndApply_current h]
  split
  · rfl
  · next hs =>
    obtain hp | hp | hp := cfg.policy.evaluateWindowPost_state_cases info
    · exact hp
    · simp [skipsYield, hp, hc] at hs
    · simp [skipsYield, hp, hc] at hs

/-- A deadline whose proof is not recorded leaves the GPU where the policy says. -/
theorem evaluateAndApply_current_of_not_completed {cfg : Config} {c : Cells}
    {info : DeadlineInfo} (h : c.current ≠ .winningPost)
    (hc : info.proofKey ∉ c.completedProofs) :
    (evaluateAndApply cfg c info).1.current = (cfg.policy.evaluateWindowPost info).state := by
  rw [evaluateAndApply_current h]
  simp [skipsYield, hc]

end OpenModel.Scheduler
