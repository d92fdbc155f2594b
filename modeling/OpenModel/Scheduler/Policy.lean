import Mathlib.Data.Int.Basic

/-!
# Yield policy of the scheduler

The deadline record reported by Lotus (`lotus.DeadlineInfo`), the thresholds of
the configuration (`config.WindowPostPolicy`, `config.WinningPostPolicy`) and
the pure policy `EvaluateWindowPost` that turns one into a yield decision.

Epochs and seconds are integers; the source uses `int64`.

## Main results

- `evaluateWindowPost_of_isOpen`, `evaluateWindowPost_of_hardStop`,
  `evaluateWindowPost_of_graceful`, `evaluateWindowPost_of_safe`: the four zones
- `evaluateWindowPost_state_eq_available_iff`: the policy says AVAILABLE exactly
  outside the window and beyond both thresholds
-/

namespace OpenModel.Scheduler

/-- `pb.GpuState`. -/
inductive GpuState
  | unknown
  | available
  | yielding
  | windowPost
  | winningPost
  deriving DecidableEq, Repr

/-- `pb.YieldUrgency`. -/
inductive YieldUrgency
  | normal
  | immediate
  deriving DecidableEq, Repr

/-- `pb.YieldReason`. -/
inductive YieldReason
  | unknown
  | windowPostApproaching
  | windowPostActive
  | winningPost
  | lotusDisconnected
  | manual
  | resume
  deriving DecidableEq, Repr

/-- `lotus.DeadlineInfo`, without the fields that no modelled function reads. -/
structure DeadlineInfo where
  currentEpoch : Int
  periodStart : Int
  index : Nat
  opensAt : Int
  closesAt : Int
  wPoStPeriodDeadlines : Nat
  wPoStProvingPeriod : Int
  wPoStChallengeWindow : Int
  deriving DecidableEq, Repr

/-- Duration of one Filecoin epoch in seconds. -/
def epochDuration : Int := 30

/-- The same deadline at another epoch. -/
def DeadlineInfo.at (d : DeadlineInfo) (epoch : Int) : DeadlineInfo :=
  { d with currentEpoch := epoch }

namespace DeadlineInfo

/-- Wall-clock seconds until the deadline window opens. -/
def secondsUntilOpen (d : DeadlineInfo) : Int :=
  let epochs := d.opensAt - d.currentEpoch
  if epochs < 0 then 0 else epochs * epochDuration

/-- Wall-clock seconds until the deadline window closes. -/
def secondsUntilClose (d : DeadlineInfo) : Int :=
  let epochs := d.closesAt - d.currentEpoch
  if epochs < 0 then 0 else epochs * epochDuration

/-- The deadline window is currently open. -/
def isOpen (d : DeadlineInfo) : Bool :=
  d.opensAt ≤ d.currentEpoch && d.currentEpoch < d.closesAt

theorem isOpen_iff (d : DeadlineInfo) :
    d.isOpen = true ↔ d.opensAt ≤ d.currentEpoch ∧ d.currentEpoch < d.closesAt := by
  simp [isOpen]

/-- Before the window opens the countdown is the distance in epochs. -/
theorem secondsUntilOpen_of_le {d : DeadlineInfo} (h : d.currentEpoch ≤ d.opensAt) :
    d.secondsUntilOpen = (d.opensAt - d.currentEpoch) * epochDuration := by
  have hn : ¬ d.opensAt - d.currentEpoch < 0 := by omega
  simp [secondsUntilOpen, hn]

end DeadlineInfo

/-- `config.WindowPostPolicy`, without the fields that no modelled function reads. -/
structure WindowPostPolicy where
  gracefulYieldThresholdSec : Int
  hardStopThresholdSec : Int
  resumeDelayAfterCloseSec : Int
  proofDetectionEnabled : Bool
  sectorCacheRefreshEpochs : Int
  deriving DecidableEq, Repr

/-- `config.WinningPostPolicy`, without the fields that no modelled function reads. -/
structure WinningPostPolicy where
  resumeDelaySec : Int
  deriving DecidableEq, Repr

/-- `applyDefaults` on the WindowPoSt section: an absent value reads as zero. -/
def WindowPostPolicy.applyDefaults (p : WindowPostPolicy) : WindowPostPolicy :=
  { p with
    gracefulYieldThresholdSec :=
      if p.gracefulYieldThresholdSec = 0 then 300 else p.gracefulYieldThresholdSec
    hardStopThresholdSec := if p.hardStopThresholdSec = 0 then 120 else p.hardStopThresholdSec
    resumeDelayAfterCloseSec :=
      if p.resumeDelayAfterCloseSec = 0 then 60 else p.resumeDelayAfterCloseSec
    sectorCacheRefreshEpochs :=
      if p.sectorCacheRefreshEpochs = 0 then 360 else p.sectorCacheRefreshEpochs }

/-- `applyDefaults` on the WinningPoSt section. -/
def WinningPostPolicy.applyDefaults (p : WinningPostPolicy) : WinningPostPolicy :=
  { p with resumeDelaySec := if p.resumeDelaySec = 0 then 5 else p.resumeDelaySec }

/-- `scheduler.YieldPolicy`. -/
structure YieldPolicy where
  windowPost : WindowPostPolicy
  winningPost : WinningPostPolicy
  failSafeOnDisconnect : Bool
  deriving DecidableEq, Repr

/-- `scheduler.YieldDecision`. -/
structure YieldDecision where
  state : GpuState
  urgency : YieldUrgency
  reason : YieldReason
  message : String
  secondsUntilNextChange : Int := 0
  deriving DecidableEq, Repr

/-- The policy of a configuration file that only switches proof detection and the
fail-safe on. -/
def defaultPolicy : YieldPolicy where
  windowPost := WindowPostPolicy.applyDefaults ⟨0, 0, 0, true, 0⟩
  winningPost := WinningPostPolicy.applyDefaults ⟨0⟩
  failSafeOnDisconnect := true

/-- Deadline 0 of 48 as Lotus reports it at `epoch`. -/
def deadline0At (epoch : Int) : DeadlineInfo where
  currentEpoch := epoch
  periodStart := 0
  index := 0
  opensAt := 0
  closesAt := 60
  wPoStPeriodDeadlines := 48
  wPoStProvingPeriod := 2880
  wPoStChallengeWindow := 60

/-- `YieldPolicy.EvaluateWindowPost` at a deadline that is not nil; the callers
never pass nil. The code computes in `int64`, which gives the same for epochs within
10^17 of one another and settings below 10^18. -/
def YieldPolicy.evaluateWindowPost (p : YieldPolicy) (info : DeadlineInfo) : YieldDecision :=
  let secondsUntilOpen := info.secondsUntilOpen
  if info.isOpen then
    { state := .windowPost
      urgency := .immediate
      reason := .windowPostActive
      message := "WindowPoSt deadline is active"
      secondsUntilNextChange :=
        info.secondsUntilClose + p.windowPost.resumeDelayAfterCloseSec }
  else
    let gracefulThreshold := p.windowPost.gracefulYieldThresholdSec
    let hardStopThreshold := p.windowPost.hardStopThresholdSec
    if secondsUntilOpen ≤ hardStopThreshold then
      { state := .windowPost
        urgency := .immediate
        reason := .windowPostApproaching
        message := "WindowPoSt deadline imminent, hard stop"
        secondsUntilNextChange := secondsUntilOpen }
    else if secondsUntilOpen ≤ gracefulThreshold then
      { state := .yielding
        urgency := .normal
        reason := .windowPostApproaching
        message := "WindowPoSt deadline approaching, graceful yield"
        secondsUntilNextChange := secondsUntilOpen - hardStopThreshold }
    else
      { state := .available
        urgency := .normal
        reason := .resume
        message := "GPU available for inference"
        secondsUntilNextChange := secondsUntilOpen - gracefulThreshold }

namespace YieldPolicy

variable {p : YieldPolicy} {info : DeadlineInfo}

/-- **Open window**: the policy demands the GPU. -/
theorem evaluateWindowPost_of_isOpen (h : info.isOpen = true) :
    (p.evaluateWindowPost info).state = .windowPost := by
  simp [evaluateWindowPost, h]

/-- **Hard stop zone**: the policy demands the GPU before the window opens. -/
theorem evaluateWindowPost_of_hardStop
    (h : info.secondsUntilOpen ≤ p.windowPost.hardStopThresholdSec) :
    (p.evaluateWindowPost info).state = .windowPost := by
  by_cases ho : info.isOpen = true
  · exact evaluateWindowPost_of_isOpen ho
  · simp [evaluateWindowPost, ho, h]

/-- **Graceful zone**: a closed window between the two thresholds. -/
theorem evaluateWindowPost_of_graceful (ho : info.isOpen = false)
    (hh : p.windowPost.hardStopThresholdSec < info.secondsUntilOpen)
    (hg : info.secondsUntilOpen ≤ p.windowPost.gracefulYieldThresholdSec) :
    (p.evaluateWindowPost info).state = .yielding := by
  have hn : ¬ info.secondsUntilOpen ≤ p.windowPost.hardStopThresholdSec := by omega
  simp [evaluateWindowPost, ho, hn, hg]

/-- **Safe zone**: a closed window beyond both thresholds. -/
theorem evaluateWindowPost_of_safe (ho : info.isOpen = false)
    (hh : p.windowPost.hardStopThresholdSec < info.secondsUntilOpen)
    (hg : p.windowPost.gracefulYieldThresholdSec < info.secondsUntilOpen) :
    (p.evaluateWindowPost info).state = .available := by
  have hn : ¬ info.secondsUntilOpen ≤ p.windowPost.hardStopThresholdSec := by omega
  have hm : ¬ info.secondsUntilOpen ≤ p.windowPost.gracefulYieldThresholdSec := by omega
  simp [evaluateWindowPost, ho, hn, hm]

/-- The policy only ever asks for AVAILABLE, YIELDING or WINDOW_POST. -/
theorem evaluateWindowPost_state_cases (p : YieldPolicy) (info : DeadlineInfo) :
    (p.evaluateWindowPost info).state = .available ∨
      (p.evaluateWindowPost info).state = .yielding ∨
        (p.evaluateWindowPost info).state = .windowPost := by
  unfold evaluateWindowPost
  dsimp only
  split
  · simp
  · split
    · simp
    · split <;> simp

theorem evaluateWindowPost_state_ne_winningPost (p : YieldPolicy) (info : DeadlineInfo) :
    (p.evaluateWindowPost info).state ≠ .winningPost := by
  obtain h | h | h := evaluateWindowPost_state_cases p info <;> simp [h]

/-- AVAILABLE is the decision exactly when the window is closed and opens later
than both thresholds. -/
theorem evaluateWindowPost_state_eq_available_iff :
    (p.evaluateWindowPost info).state = .available ↔
      info.isOpen = false ∧
        p.windowPost.hardStopThresholdSec < info.secondsUntilOpen ∧
        p.windowPost.gracefulYieldThresholdSec < info.secondsUntilOpen := by
  constructor
  · intro h
    by_cases ho : info.isOpen = true
    · simp [evaluateWindowPost_of_isOpen ho] at h
    have ho' : info.isOpen = false := by simpa using ho
    by_cases hh : info.secondsUntilOpen ≤ p.windowPost.hardStopThresholdSec
    · simp [evaluateWindowPost_of_hardStop hh] at h
    by_cases hg : info.secondsUntilOpen ≤ p.windowPost.gracefulYieldThresholdSec
    · simp [evaluateWindowPost_of_graceful ho' (by omega) hg] at h
    exact ⟨ho', by omega, by omega⟩
  · rintro ⟨ho, hh, hg⟩
    exact evaluateWindowPost_of_safe ho hh hg

end YieldPolicy

end OpenModel.Scheduler
