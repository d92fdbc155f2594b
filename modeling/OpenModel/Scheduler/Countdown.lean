import OpenModel.Scheduler.ProvingSchedule
import OpenModel.Scheduler.Zones

/-!
# The countdown of `/ready`

`handleReady` prints the countdown of the latest decision. While the GPU is AVAILABLE it is meant
to be the time until the next scheduled yield. Runs of polls over a fixed schedule and sector
assignment, with everything else that happens to the scheduler in between; a later poll on the
same data says when the next yield really comes.

## Main results

- `Countdown.truthful_of_reach`: the sector cache of every run is truthful
- `Countdown.honest_of_yieldsOnTime`, `Countdown.yieldsOnTime_of_honest`: the two directions
- `Countdown.honest_iff`: when the printed countdown is the true one
-/

namespace OpenModel.Scheduler

/-- `GpuState.String`. -/
def GpuState.string : GpuState → String
  | .unknown => "GPU_STATE_UNKNOWN"
  | .available => "GPU_STATE_AVAILABLE"
  | .yielding => "GPU_STATE_YIELDING"
  | .windowPost => "GPU_STATE_WINDOW_POST"
  | .winningPost => "GPU_STATE_WINNING_POST"

namespace Cells

/-- The countdown of the latest decision. -/
def untilChange (c : Cells) : Int :=
  match c.latestDecision with
  | some d => d.secondsUntilNextChange
  | none => -1

/-- The value of `seconds_until_change`, if the field is printed. -/
def printedCountdown (c : Cells) : Option Int :=
  if 0 ≤ c.untilChange then some c.untilChange else none

/-- `handleReady`: the text of the answer. -/
def handleReady (c : Cells) : String :=
  match c.printedCountdown with
  | some seconds =>
    "ready, seconds_until_change=" ++ toString seconds ++ ", gpu_state=" ++ c.current.string ++ "\n"
  | none => "ready, gpu_state=" ++ c.current.string ++ "\n"

end Cells

/-- What happens to the scheduler. -/
inductive ReadyLabel
  /-- A poll at an epoch, at which some of the sector queries may fail. -/
  | poll (epoch : Int) (fails : Nat → Bool)
  /-- Anything that other goroutines do; none of them writes the sector cache. -/
  | others (cells : Cells)

namespace Countdown

/-- Polls and other events in any order, started with an empty sector cache. -/
def system (cfg : Config) (S : ProvingSchedule) (sectors : Nat → Nat) :
    Transition.System Cells ReadyLabel where
  init c := c.sectorCache = ⟨∅, 0⟩
  step c label :=
    match label with
    | .poll epoch fails => some (checkWindowPost cfg c
        ⟨some (S.infoAt epoch), fun i => if fails i then none else some (sectors i)⟩).1
    | .others cells => some { cells with sectorCache := c.sectorCache }

variable (cfg : Config) (S : ProvingSchedule) (sectors : Nat → Nat) (c : Cells) (e : Int)

/-- A poll at `e` at which Lotus answers. -/
def polled : Cells := (checkWindowPost cfg c (S.answersAt sectors e)).1

/-- A poll at `e` would decide AVAILABLE. -/
def DecidesAvailable : Prop := (polled cfg S sectors c e).current = .available

/-- The first epoch after `e` at which a poll would no longer decide AVAILABLE. -/
def IsNextYield (e₁ : Int) : Prop :=
  e < e₁ ∧ ¬ DecidesAvailable cfg S sectors c e₁ ∧
    ∀ e', e < e' → e' < e₁ → DecidesAvailable cfg S sectors c e'

/-- The printed countdown is the time until the next yield, and there is none when there is no
next yield. -/
def Honest : Prop :=
  (∀ e₁, IsNextYield cfg S sectors c e e₁ → c.printedCountdown = some ((e₁ - e) * epochDuration)) ∧
    ((∀ e', e < e' → DecidesAvailable cfg S sectors c e') → c.printedCountdown = none)

/-- The next deadline with sectors is in the safe zone and its proof is not recorded; the
graceful threshold is a whole number of epochs and not shorter than the hard stop. -/
def YieldsOnTime : Prop :=
  ∃ t, S.IsFirst sectors (S.current e) t ∧
    (cfg.policy.evaluateWindowPost (S.deadline t e)).state = .available ∧
    (S.deadline t e).proofKey ∉ c.completedProofs ∧
    0 ≤ cfg.policy.windowPost.gracefulYieldThresholdSec ∧
    cfg.policy.windowPost.gracefulYieldThresholdSec % epochDuration = 0 ∧
    cfg.policy.windowPost.hardStopThresholdSec / epochDuration ≤
      cfg.policy.windowPost.gracefulYieldThresholdSec / epochDuration

/-- No win and no proof monitor, on a truthful cache. -/
structure Undisturbed (S : ProvingSchedule) (sectors : Nat → Nat) (c : Cells) : Prop where
  monitor : c.proofMonitorActive = false
  current : c.current ≠ .winningPost
  keyed : c.sectorCache.Keyed S.deadlines
  truthful : c.sectorCache.Truthful sectors

variable {cfg S sectors c e} {t e₁ : Int}

/-- A poll caches true counts of deadlines of the period. -/
theorem truthful_checkWindowPost (hk : c.sectorCache.Keyed S.deadlines)
    (hc : c.sectorCache.Truthful sectors) (cfg : Config) (rpc : SectorAnswers)
    (hrpc : ∀ i k, rpc i = some k → k = sectors i) (e : Int) :
    (checkWindowPost cfg c ⟨some (S.infoAt e), rpc⟩).1.sectorCache.Keyed S.deadlines ∧
      (checkWindowPost cfg c ⟨some (S.infoAt e), rpc⟩).1.sectorCache.Truthful sectors := by
  have hnext : (c.sectorCache.lookAhead cfg.policy (S.infoAt e) rpc).2.Keyed S.deadlines :=
    hk.lookAhead (S.onSchedule_infoAt e).onPeriod.numDeadlines_eq ProvingSchedule.indexOf_lt
  have htrue : (c.sectorCache.lookAhead cfg.policy (S.infoAt e) rpc).2.Truthful sectors :=
    hc.lookAhead hrpc
  simp only [checkWindowPost]
  generalize c.sectorCache.lookAhead cfg.policy (S.infoAt e) rpc = found at hnext htrue
  obtain ⟨target, cache⟩ := found
  split
  · exact ⟨hk, hc⟩
  · split
    · exact ⟨hk, hc⟩
    · cases target with
      | none =>
        dsimp only
        rw [Cells.applyDecisionUnlessWinning_sectorCache]
        exact ⟨hnext, htrue⟩
      | some info =>
        dsimp only
        rw [evaluateAndApply_sectorCache]
        exact ⟨hnext, htrue⟩

/-- **Run lemma**: whatever happens, the sector cache is truthful. -/
theorem truthful_of_reach (h : (system cfg S sectors).Reach Transition.System.anyStep c) :
    c.sectorCache.Keyed S.deadlines ∧ c.sectorCache.Truthful sectors := by
  refine h.invariant
    (I := fun c => c.sectorCache.Keyed S.deadlines ∧ c.sectorCache.Truthful sectors) ?_ ?_
  · intro c h0
    rw [show c.sectorCache = ⟨∅, 0⟩ from h0]
    exact ⟨SectorCache.keyed_empty _ _, fun i e he => by simp at he⟩
  · rintro c (⟨epoch, fails⟩ | ⟨cells⟩) d ⟨hk, hc⟩ - hstep
    · cases hstep
      refine truthful_checkWindowPost hk hc cfg _ ?_ epoch
      intro i k hik
      split at hik
      · cases hik
      · exact (Option.some.inj hik).symm
    · cases hstep
      exact ⟨hk, hc⟩

-- ════════════════════════════════════════════════════════════════════════
-- One poll
-- ════════════════════════════════════════════════════════════════════════

/-- What a poll without disturbance applies: the policy's decision on the first deadline with
sectors, or AVAILABLE without a countdown. -/
theorem Undisturbed.polled_cases (h : Undisturbed S sectors c) (cfg : Config) (e : Int) :
    (∃ t d, S.IsFirst sectors (S.current e) t ∧
      d = cfg.policy.evaluateWindowPost (S.deadline t e) ∧
      (d.state = .available ∨ (S.deadline t e).proofKey ∉ c.completedProofs) ∧
      (polled cfg S sectors c e).current = d.state ∧
      (polled cfg S sectors c e).latestDecision = some d) ∨
    ((∀ t, S.IsFirst sectors (S.current e) t →
        (cfg.policy.evaluateWindowPost (S.deadline t e)).state ≠ .available ∧
          (S.deadline t e).proofKey ∈ c.completedProofs) ∧
      (polled cfg S sectors c e).current = .available ∧
      (polled cfg S sectors c e).untilChange = 0) := by
  have hreads := h.truthful.reads_eq cfg.policy (S.infoAt e)
  obtain ⟨t, hfirst, hpoll⟩ | ⟨hz, hpoll⟩ :=
    ProvingSchedule.poll_cases h.monitor h.current h.keyed cfg sectors e
  · rw [hreads] at hfirst
    by_cases hskip : skipsYield (cfg.policy.evaluateWindowPost (S.deadline t e)) c.completedProofs
        (S.deadline t e) = true
    · right
      obtain ⟨subscribers, heq⟩ := Cells.applyDecisionUnlessWinning_eq
        (c := { c with sectorCache := ProvingSchedule.cacheAfter cfg S sectors e c }) h.current
        alreadyCompletedDecision
      rw [polled, hpoll]
      simp only [evaluateAndApply, hskip, if_true, heq]
      refine ⟨fun r hr => ?_, rfl, rfl⟩
      rw [hr.unique hfirst]
      simp only [skipsYield, Bool.and_eq_true, Bool.or_eq_true, beq_iff_eq, decide_eq_true_eq]
        at hskip
      refine ⟨fun hav => ?_, hskip.2⟩
      rw [hav] at hskip
      simp at hskip
    · left
      refine ⟨t, _, hfirst, rfl, ?_, ?_⟩
      · obtain hp | hp | hp := cfg.policy.evaluateWindowPost_state_cases (S.deadline t e)
        · exact .inl hp
        · exact .inr fun hmem => hskip (by simp [skipsYield, hp, hmem])
        · exact .inr fun hmem => hskip (by simp [skipsYield, hp, hmem])
      · obtain ⟨subscribers, heq⟩ := Cells.applyDecisionUnlessWinning_eq
          (c := { c with sectorCache := ProvingSchedule.cacheAfter cfg S sectors e c }) h.current
          (cfg.policy.evaluateWindowPost (S.deadline t e))
        rw [polled, hpoll]
        simp only [evaluateAndApply, hskip, Bool.false_eq_true, if_false, heq]
        split <;> exact ⟨rfl, rfl⟩
  · right
    obtain ⟨subscribers, heq⟩ := Cells.applyDecisionUnlessWinning_eq
      (c := { c with sectorCache := ProvingSchedule.cacheAfter cfg S sectors e c }) h.current
      noSectorsDecision
    rw [polled, hpoll, heq]
    refine ⟨fun t hfirst => ?_, rfl, rfl⟩
    have hpos := hfirst.2.1
    rw [← hreads, hz _ ProvingSchedule.indexOf_lt] at hpos
    omega

/-- A poll that leaves the GPU AVAILABLE leaves an undisturbed state with the same recorded
proofs. -/
theorem Undisturbed.polled (h : Undisturbed S sectors c)
    (hav : DecidesAvailable cfg S sectors c e) :
    Undisturbed S sectors (polled cfg S sectors c e) ∧
      (Countdown.polled cfg S sectors c e).completedProofs = c.completedProofs := by
  obtain ⟨hk, hc⟩ := truthful_checkWindowPost h.keyed h.truthful cfg
    (fun i => some (sectors i)) (fun i k hik => (Option.some.inj hik).symm) e
  have hrest : (Countdown.polled cfg S sectors c e).proofMonitorActive = false ∧
      (Countdown.polled cfg S sectors c e).completedProofs = c.completedProofs := by
    have happly : ∀ (c' : Cells) (d : YieldDecision), c'.current ≠ .winningPost →
        (c'.applyDecisionUnlessWinning d).proofMonitorActive = c'.proofMonitorActive ∧
          (c'.applyDecisionUnlessWinning d).completedProofs = c'.completedProofs := by
      intro c' d hwin
      obtain ⟨subscribers, heq⟩ := Cells.applyDecisionUnlessWinning_eq hwin d
      rw [heq]
      exact ⟨rfl, rfl⟩
    let fetched : Cells := { c with sectorCache := ProvingSchedule.cacheAfter cfg S sectors e c }
    have hwin : fetched.current ≠ .winningPost := h.current
    have hbase : ∀ d, (fetched.applyDecisionUnlessWinning d).proofMonitorActive = false ∧
        (fetched.applyDecisionUnlessWinning d).completedProofs = c.completedProofs := by
      intro d
      rw [(happly fetched d hwin).1, (happly fetched d hwin).2]
      exact ⟨h.monitor, rfl⟩
    obtain ⟨t, -, hpoll⟩ | ⟨-, hpoll⟩ :=
      ProvingSchedule.poll_cases h.monitor h.current h.keyed cfg sectors e
    · unfold DecidesAvailable at hav
      rw [Countdown.polled, hpoll] at hav ⊢
      rw [evaluateAndApply_current hwin] at hav
      unfold evaluateAndApply
      dsimp only
      by_cases hskip : skipsYield (cfg.policy.evaluateWindowPost (S.deadline t e))
          c.completedProofs (S.deadline t e) = true
      · rw [if_pos hskip]
        exact hbase _
      · rw [if_neg hskip] at hav ⊢
        rw [if_neg]
        · exact hbase _
        · rw [Config.launchesMonitor, hav]
          simp
    · rw [Countdown.polled, hpoll]
      exact hbase _
  refine ⟨⟨hrest.1, ?_, hk, hc⟩, hrest.2⟩
  rw [show (Countdown.polled cfg S sectors c e).current = .available from hav]
  decide

/-- When a later poll decides AVAILABLE. -/
theorem Undisturbed.decidesAvailable_iff (h : Undisturbed S sectors c) :
    DecidesAvailable cfg S sectors c e ↔
      ∀ t, S.IsFirst sectors (S.current e) t →
        (cfg.policy.evaluateWindowPost (S.deadline t e)).state = .available ∨
          (S.deadline t e).proofKey ∈ c.completedProofs := by
  unfold DecidesAvailable
  obtain ⟨t, d, hfirst, rfl, hkey, hcur, -⟩ | ⟨hall, hcur, -⟩ := h.polled_cases cfg e
  · rw [hcur]
    constructor
    · intro hav r hr
      rw [hr.unique hfirst]
      exact .inl hav
    · intro hr
      obtain hav | hmem := hr t hfirst
      · exact hav
      · exact hkey.resolve_right fun hnot => hnot hmem
  · rw [hcur]
    exact iff_of_true rfl fun t hfirst => .inr (hall t hfirst).2

/-- The safe zone of a deadline that is not over. -/
theorem available_deadline_iff (p : YieldPolicy) (hcur : S.current e ≤ t) :
    (p.evaluateWindowPost (S.deadline t e)).state = .available ↔
      e < S.start + t * S.window ∧
        p.windowPost.hardStopThresholdSec < (S.start + t * S.window - e) * epochDuration ∧
        p.windowPost.gracefulYieldThresholdSec < (S.start + t * S.window - e) * epochDuration := by
  have hzone : p.stateAt (S.deadline t e) e = .available ↔ _ :=
    YieldPolicy.stateAt_eq_available_iff (ProvingSchedule.lt_closesAt hcur e)
  exact hzone

/-- As long as deadline `t` is the next one with sectors. -/
theorem Undisturbed.decidesAvailable_until (h : Undisturbed S sectors c)
    (hfirst : S.IsFirst sectors (S.current e) t) {e' : Int} (hle : e ≤ e')
    (hopen : e' ≤ S.start + t * S.window) :
    DecidesAvailable cfg S sectors c e' ↔
      (e' < S.start + t * S.window ∧
        cfg.policy.windowPost.hardStopThresholdSec <
          (S.start + t * S.window - e') * epochDuration ∧
        cfg.policy.windowPost.gracefulYieldThresholdSec <
          (S.start + t * S.window - e') * epochDuration) ∨
      (S.deadline t e).proofKey ∈ c.completedProofs := by
  have hcur := ProvingSchedule.current_le hopen
  have hfirst' := hfirst.mono (ProvingSchedule.current_mono hle) hcur
  rw [h.decidesAvailable_iff, ← available_deadline_iff _ hcur]
  constructor
  · intro hall
    exact hall t hfirst'
  · intro hav r hr
    rw [hr.unique hfirst']
    exact hav

/-- The countdown of a deadline in the safe zone. -/
theorem secondsUntilNextChange_of_available (hcur : S.current e ≤ t)
    (h : (cfg.policy.evaluateWindowPost (S.deadline t e)).state = .available) :
    (cfg.policy.evaluateWindowPost (S.deadline t e)).secondsUntilNextChange =
      (S.start + t * S.window - e) * epochDuration -
        cfg.policy.windowPost.gracefulYieldThresholdSec :=
  YieldPolicy.countdownAt_of_available (ProvingSchedule.lt_closesAt hcur e) h

theorem IsNextYield.unique {e₂ : Int} (h : IsNextYield cfg S sectors c e e₁)
    (h' : IsNextYield cfg S sectors c e e₂) : e₁ = e₂ := by
  rcases Int.lt_trichotomy e₁ e₂ with hlt | heq | hlt
  · exact absurd (h'.2.2 e₁ h.1 hlt) h.2.1
  · exact heq
  · exact absurd (h.2.2 e₂ h'.1 hlt) h'.2.1

/-- Either a yield comes next, or none ever. -/
theorem exists_isNextYield (cfg : Config) (S : ProvingSchedule) (sectors : Nat → Nat) (c : Cells)
    (e : Int) :
    (∃ e₁, IsNextYield cfg S sectors c e e₁) ∨ ∀ e', e < e' → DecidesAvailable cfg S sectors c e' := by
  classical
  by_cases hall : ∀ e', e < e' → DecidesAvailable cfg S sectors c e'
  · exact .inr hall
  · left
    have hex : ∃ k : Nat, ¬ DecidesAvailable cfg S sectors c (e + 1 + k) := by
      rw [not_forall] at hall
      obtain ⟨e', he'⟩ := hall
      rw [Classical.not_imp] at he'
      refine ⟨(e' - e - 1).toNat, ?_⟩
      have hk : e + 1 + ((e' - e - 1).toNat : Int) = e' := by omega
      rw [hk]
      exact he'.2
    refine ⟨e + 1 + Nat.find hex, by omega, Nat.find_spec hex, fun e' hlo hhi => ?_⟩
    have hnot := Nat.find_min hex (m := (e' - e - 1).toNat) (by omega)
    have hk : e + 1 + ((e' - e - 1).toNat : Int) = e' := by omega
    rw [hk] at hnot
    exact Classical.not_not.mp hnot

/-- A printed zero is never the time until a later yield. -/
theorem not_honest_of_zero (h : c.untilChange = 0) : ¬ Honest cfg S sectors c e := by
  rintro ⟨hyield, hnever⟩
  have hprinted : c.printedCountdown = some 0 := by
    simp [Cells.printedCountdown, h]
  obtain ⟨e₁, he₁⟩ | hall := exists_isNextYield cfg S sectors c e
  · have hsome := hyield e₁ he₁
    rw [hprinted] at hsome
    have hzero := Option.some.inj hsome
    have hlt := he₁.1
    simp only [epochDuration] at hzero
    omega
  · have hnone := hnever hall
    rw [hprinted] at hnone
    cases hnone

/-- **Honest**: in the safe zone of a deadline whose proof is not recorded, with a graceful
threshold of whole epochs that is not the shorter one. -/
theorem honest_of_yieldsOnTime (h : Undisturbed S sectors c)
    (hav : DecidesAvailable cfg S sectors c e) (hon : YieldsOnTime cfg S sectors c e) :
    Honest cfg S sectors (polled cfg S sectors c e) e := by
  obtain ⟨t, hfirst, hsafe, hkey, hg, hwhole, hhard⟩ := hon
  obtain ⟨hundisturbed, hcompleted⟩ := h.polled hav
  have huntil := secondsUntilNextChange_of_available hfirst.1 hsafe
  have hzone := (available_deadline_iff cfg.policy hfirst.1).mp hsafe
  obtain ⟨r, d, hr, rfl, -, -, hlatest⟩ | ⟨hall, -⟩ := h.polled_cases cfg e
  · rw [hr.unique hfirst] at hlatest
    simp only [epochDuration] at hwhole hhard huntil hzone
    -- the yield comes when the graceful threshold is reached
    have hnext : IsNextYield cfg S sectors (polled cfg S sectors c e) e
        (S.start + t * S.window - cfg.policy.windowPost.gracefulYieldThresholdSec / 30) := by
      refine ⟨by omega, ?_, fun e' hlo hhi => ?_⟩
      · rw [hundisturbed.decidesAvailable_until hfirst (by omega) (by omega), hcompleted]
        simp only [epochDuration, hkey, or_false]
        omega
      · rw [hundisturbed.decidesAvailable_until hfirst (by omega) (by omega)]
        simp only [epochDuration]
        left
        omega
    have hprinted : (polled cfg S sectors c e).printedCountdown =
        some ((S.start + t * S.window - cfg.policy.windowPost.gracefulYieldThresholdSec / 30 - e) *
          epochDuration) := by
      simp only [Cells.printedCountdown, Cells.untilChange, hlatest, huntil, epochDuration]
      rw [if_pos (by omega)]
      congr 1
      omega
    refine ⟨fun e₁ he₁ => ?_, fun hnever => absurd (hnever _ hnext.1) hnext.2.1⟩
    rw [he₁.unique hnext]
    exact hprinted
  · exact absurd hsafe (hall t hfirst).1

/-- **Only then**, as long as the graceful threshold is not negative. -/
theorem yieldsOnTime_of_honest (h : Undisturbed S sectors c)
    (hav : DecidesAvailable cfg S sectors c e)
    (hg : 0 ≤ cfg.policy.windowPost.gracefulYieldThresholdSec)
    (hhonest : Honest cfg S sectors (polled cfg S sectors c e) e) :
    YieldsOnTime cfg S sectors c e := by
  obtain ⟨hundisturbed, hcompleted⟩ := h.polled hav
  obtain ⟨t, d, hfirst, rfl, -, hcur, hlatest⟩ | ⟨-, -, hzero⟩ := h.polled_cases cfg e
  · have hsafe : (cfg.policy.evaluateWindowPost (S.deadline t e)).state = .available :=
      hcur.symm.trans hav
    have huntil := secondsUntilNextChange_of_available hfirst.1 hsafe
    have hzone := (available_deadline_iff cfg.policy hfirst.1).mp hsafe
    simp only [epochDuration] at huntil hzone
    have hprinted : (polled cfg S sectors c e).printedCountdown =
        some ((S.start + t * S.window - e) * 30 -
          cfg.policy.windowPost.gracefulYieldThresholdSec) := by
      simp only [Cells.printedCountdown, Cells.untilChange, hlatest, huntil]
      rw [if_pos (by omega)]
    obtain ⟨e₁, hnext⟩ | hnever := exists_isNextYield cfg S sectors (polled cfg S sectors c e) e
    · have hsome := hhonest.1 e₁ hnext
      rw [hprinted] at hsome
      have htime := Option.some.inj hsome
      have hlater := hnext.1
      simp only [epochDuration] at htime
      have hyield := hnext.2.1
      rw [hundisturbed.decidesAvailable_until hfirst (by omega) (by omega), hcompleted] at hyield
      refine ⟨t, hfirst, hsafe, fun hmem => hyield (.inr hmem), hg, ?_, ?_⟩
      · simp only [epochDuration]
        omega
      · -- otherwise the hard stop would come first
        by_contra hlong
        simp only [epochDuration] at hlong
        have hearlier := hnext.2.2
          (S.start + t * S.window - cfg.policy.windowPost.hardStopThresholdSec / 30) (by omega)
          (by omega)
        rw [hundisturbed.decidesAvailable_until hfirst (by omega) (by omega), hcompleted] at hearlier
        obtain hz | hmem := hearlier
        · simp only [epochDuration] at hz
          omega
        · exact hyield (.inr hmem)
    · have hnone := hhonest.2 hnever
      rw [hprinted] at hnone
      cases hnone
  · exact absurd hhonest (not_honest_of_zero hzero)

/-- **Exact condition**: in every run, after a poll without disturbance that leaves the GPU
AVAILABLE, the printed countdown is the true one if the next deadline with sectors is in the safe
zone, its proof is not recorded, and the graceful threshold is a whole number of epochs that is
not shorter than the hard stop; and, unless the graceful threshold is negative, only then. -/
theorem honest_iff (hr : (system cfg S sectors).Reach Transition.System.anyStep c)
    (hmonitor : c.proofMonitorActive = false) (hwin : c.current ≠ .winningPost)
    (hav : DecidesAvailable cfg S sectors c e) :
    (YieldsOnTime cfg S sectors c e → Honest cfg S sectors (polled cfg S sectors c e) e) ∧
      (0 ≤ cfg.policy.windowPost.gracefulYieldThresholdSec →
        Honest cfg S sectors (polled cfg S sectors c e) e → YieldsOnTime cfg S sectors c e) := by
  obtain ⟨hk, hc⟩ := truthful_of_reach hr
  have h : Undisturbed S sectors c := ⟨hmonitor, hwin, hk, hc⟩
  exact ⟨honest_of_yieldsOnTime h hav, yieldsOnTime_of_honest h hav⟩

/-- The default policy; the GPU is free of other work. -/
def idle : Config := ⟨defaultPolicy, true, 0⟩

/-- Only deadline 0 has sectors. -/
def onlyFirst : Nat → Nat := fun i => if i = 0 then 8 else 0

/-- A first poll at epoch 100, 2780 epochs before the next deadline with sectors: the countdown
of 83100 seconds is the time until the graceful yield. -/
theorem honest_onlyFirst :
    Honest idle .chain onlyFirst (polled idle .chain onlyFirst {} 100) 100 ∧
      (polled idle .chain onlyFirst {} 100).printedCountdown = some 83100 := by
  have hav : DecidesAvailable idle .chain onlyFirst {} 100 := by
    show (polled idle .chain onlyFirst {} 100).current = .available
    decide +kernel
  have hfirst : ProvingSchedule.chain.IsFirst onlyFirst (ProvingSchedule.chain.current 100) 48 := by
    have hcur : ProvingSchedule.chain.current 100 = 1 := by decide
    refine ⟨by decide, by decide, fun r hlo hhi => if_neg ?_⟩
    show (r % 48).toNat ≠ 0
    omega
  have hr : (system idle .chain onlyFirst).Reach Transition.System.anyStep {} := .init rfl
  refine ⟨(honest_iff hr rfl (by decide) hav).1 ⟨48, hfirst, ?_⟩, by decide +kernel⟩
  decide +kernel

/-- Without sectors anywhere no yield is scheduled, and the countdown is printed as zero. -/
theorem noSectors_not_honest :
    (system idle .chain fun _ => 0).Reach Transition.System.anyStep {} ∧
      DecidesAvailable idle .chain (fun _ => 0) {} 100 ∧
      ¬ Honest idle .chain (fun _ => 0) (polled idle .chain (fun _ => 0) {} 100) 100 ∧
      (polled idle .chain (fun _ => 0) {} 100).handleReady =
        "ready, seconds_until_change=0, gpu_state=GPU_STATE_AVAILABLE\n" := by
  refine ⟨.init rfl, ?_, not_honest_of_zero (by decide +kernel), by decide +kernel⟩
  show (polled idle .chain (fun _ => 0) {} 100).current = .available
  decide +kernel

end Countdown

end OpenModel.Scheduler
