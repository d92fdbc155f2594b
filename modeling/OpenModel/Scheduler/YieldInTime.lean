import OpenModel.Scheduler.CheckWindowPost
import OpenModel.Scheduler.Schedule

/-!
# Yielding before a proving window

One poll at which Lotus answers, no win is active and no proof is awaited, seen
against the whole schedule: is the GPU taken from inference whenever some
deadline with sectors still needs its proof and is open or about to open?

The poll looks at a single deadline, the first one with sectors. When the proof
of that deadline is recorded it answers AVAILABLE without looking further.

## Main results

- `AnsweredPoll.after_eq_policy`, `AnsweredPoll.after_eq_available`: the state
  that a poll leaves
- `AnsweredPoll.yieldsInTime_iff`: the exact condition under which the poll
  yields in time
-/

namespace OpenModel.Scheduler

open DeadlineInfo

/-- A poll at which Lotus reports the current deadline and accurate sector counts,
with a complete and accurate sector cache, no proof monitor and no win. -/
structure AnsweredPoll where
  cfg : Config
  cells : Cells
  info : DeadlineInfo
  sectors : Nat → Nat
  onSchedule : info.OnSchedule
  accurate : cells.sectorCache.Accurate info.wPoStPeriodDeadlines sectors
  no_monitor : cells.proofMonitorActive = false
  no_win : cells.current ≠ .winningPost

namespace AnsweredPoll

variable (P : AnsweredPoll)

/-- The GPU state after the poll. -/
def after : GpuState :=
  (checkWindowPost P.cfg P.cells ⟨some P.info, fun i => some (P.sectors i)⟩).1.current

/-- The `q`-th deadline has sectors and its proof is not recorded complete. -/
def Pending (q : Nat) : Prop :=
  P.info.index ≤ q ∧ 0 < P.sectors (q % P.info.wPoStPeriodDeadlines) ∧
    (P.info.nth q).proofKey ∉ P.cells.completedProofs

/-- The `q`-th deadline opens later, but within `seconds`. -/
def OpensWithin (seconds : Int) (q : Nat) : Prop :=
  P.info.currentEpoch < (P.info.nth q).opensAt ∧
    ((P.info.nth q).opensAt - P.info.currentEpoch) * epochDuration ≤ seconds

/-- A pending deadline that is open or opens within the hard-stop threshold does
not leave the GPU AVAILABLE; one that opens within the graceful threshold makes it
at least YIELDING. -/
def YieldsInTime : Prop :=
  (∀ q, P.Pending q → (P.info.nth q).isOpen = true ∨
      P.OpensWithin P.cfg.policy.windowPost.hardStopThresholdSec q → P.after ≠ .available) ∧
    ∀ q, P.Pending q → P.OpensWithin P.cfg.policy.windowPost.gracefulYieldThresholdSec q →
      P.after = .yielding ∨ P.after = .windowPost

/-- When the first deadline with sectors has its proof recorded, no pending deadline
opens within a threshold. -/
def NothingMissed : Prop :=
  ∀ t, P.info.IsFirstWithSectors P.sectors t →
    (P.info.nth t).proofKey ∈ P.cells.completedProofs →
    ∀ q, P.Pending q →
      ¬ P.OpensWithin P.cfg.policy.windowPost.hardStopThresholdSec q ∧
        ¬ P.OpensWithin P.cfg.policy.windowPost.gracefulYieldThresholdSec q

variable {P} {q t : Nat}

/-- From any deadline with sectors on there is a first one. -/
theorem exists_isFirstWithSectors (hq : P.info.index ≤ q)
    (hs : 0 < P.sectors (q % P.info.wPoStPeriodDeadlines)) :
    ∃ t, t ≤ q ∧ P.info.IsFirstWithSectors P.sectors t := by
  classical
  have hex : ∃ t, P.info.index ≤ t ∧ 0 < P.sectors (t % P.info.wPoStPeriodDeadlines) :=
    ⟨q, hq, hs⟩
  obtain ⟨h1, h2⟩ := Nat.find_spec hex
  refine ⟨Nat.find hex, Nat.find_min' hex ⟨hq, hs⟩, h1, h2, ?_⟩
  intro r hr hlt
  by_contra hne
  exact Nat.find_min hex hlt ⟨hr, by omega⟩

/-- A poll whose look-ahead finds a deadline evaluates it. -/
theorem after_eq_evaluate (ht : P.info.IsFirstWithSectors P.sectors t) :
    ∃ cache, P.after =
      (evaluateAndApply P.cfg { P.cells with sectorCache := cache } (P.info.nth t)).1.current := by
  have hl := P.onSchedule.lookAhead_eq_nth (p := P.cfg.policy) P.accurate ht
  generalize hd : (P.cells.sectorCache.lookAhead P.cfg.policy P.info
    fun i => some (P.sectors i)) = d at hl
  obtain ⟨target, cache⟩ := d
  dsimp only at hl
  subst hl
  exact ⟨cache, by simp [after, checkWindowPost, P.no_monitor, P.no_win, hd]⟩

/-- **Recorded proof**: the poll leaves the GPU AVAILABLE. -/
theorem after_eq_available (ht : P.info.IsFirstWithSectors P.sectors t)
    (hc : (P.info.nth t).proofKey ∈ P.cells.completedProofs) : P.after = .available := by
  obtain ⟨cache, h⟩ := after_eq_evaluate ht
  rw [h]
  exact evaluateAndApply_current_of_completed P.no_win hc

/-- **Open proof**: the poll leaves the GPU where the policy wants it. -/
theorem after_eq_policy (ht : P.info.IsFirstWithSectors P.sectors t)
    (hc : (P.info.nth t).proofKey ∉ P.cells.completedProofs) :
    P.after = (P.cfg.policy.evaluateWindowPost (P.info.nth t)).state := by
  obtain ⟨cache, h⟩ := after_eq_evaluate ht
  rw [h]
  exact evaluateAndApply_current_of_not_completed P.no_win hc

/-- A deadline that opens within a threshold bounds the countdown of every
deadline before it. -/
theorem secondsUntilOpen_le_of_opensWithin {seconds : Int} (ht : P.info.index ≤ t) (htq : t ≤ q)
    (hne : (P.info.nth t).isOpen = false) (hq : P.OpensWithin seconds q) :
    (P.info.nth t).secondsUntilOpen ≤ seconds := by
  have hnt : t ≠ P.info.index := by
    intro h
    have := (P.onSchedule.isOpen_nth_iff ht).mpr h
    rw [hne] at this
    cases this
  have hlt := P.onSchedule.currentEpoch_lt_opensAt_nth (q := t) (by omega)
  have hmono := P.onSchedule.opensAt_nth_mono htq
  rw [secondsUntilOpen_of_le (d := P.info.nth t) (by simp only [nth] at hlt ⊢; omega)]
  obtain ⟨-, hsec⟩ := hq
  simp only [epochDuration] at hsec ⊢
  simp only [nth] at hmono hsec ⊢
  omega

/-- A poll that evaluates a pending deadline yields in time for every deadline. -/
theorem yieldsInTime_of_not_completed (ht : P.info.IsFirstWithSectors P.sectors t)
    (hc : (P.info.nth t).proofKey ∉ P.cells.completedProofs) : P.YieldsInTime := by
  have hafter := after_eq_policy ht hc
  -- the evaluated deadline is not later than any pending one
  have hle : ∀ q, P.Pending q → t ≤ q := by
    rintro q ⟨hq, hs, -⟩
    by_contra hlt
    have := ht.2.2 q hq (by omega)
    omega
  by_cases ho : (P.info.nth t).isOpen = true
  · have hw := YieldPolicy.evaluateWindowPost_of_isOpen (p := P.cfg.policy) ho
    rw [hw] at hafter
    exact ⟨fun _ _ _ => by simp [hafter], fun _ _ _ => Or.inr hafter⟩
  · have ho' : (P.info.nth t).isOpen = false := by simpa using ho
    refine ⟨?_, ?_⟩
    · rintro q hp (hopen | hwithin)
      · have hq := (P.onSchedule.isOpen_nth_iff hp.1).mp hopen
        have : t = P.info.index := le_antisymm (hq ▸ hle q hp) ht.1
        rw [(P.onSchedule.isOpen_nth_iff ht.1).mpr this] at ho'
        cases ho'
      · have hsec := secondsUntilOpen_le_of_opensWithin ht.1 (hle q hp) ho' hwithin
        simp [hafter, YieldPolicy.evaluateWindowPost_of_hardStop hsec]
    · intro q hp hwithin
      have hsec := secondsUntilOpen_le_of_opensWithin ht.1 (hle q hp) ho' hwithin
      by_cases hh : (P.info.nth t).secondsUntilOpen ≤
          P.cfg.policy.windowPost.hardStopThresholdSec
      · exact Or.inr (hafter.trans (YieldPolicy.evaluateWindowPost_of_hardStop hh))
      · exact Or.inl (hafter.trans
          (YieldPolicy.evaluateWindowPost_of_graceful ho' (by omega) hsec))

/-- **Exact condition**: the poll yields in time if and only if a recorded proof of
the first deadline with sectors does not hide a pending deadline that is about to
open. -/
theorem yieldsInTime_iff (P : AnsweredPoll) : P.YieldsInTime ↔ P.NothingMissed := by
  constructor
  · intro h t ht hc q hp
    have hafter := after_eq_available ht hc
    refine ⟨fun hw => h.1 q hp (Or.inr hw) hafter, fun hw => ?_⟩
    obtain h' | h' := h.2 q hp hw <;> simp [hafter] at h'
  · intro h
    by_cases hex : ∃ q, P.Pending q
    · obtain ⟨q, hp⟩ := hex
      obtain ⟨t, -, ht⟩ := exists_isFirstWithSectors hp.1 hp.2.1
      by_cases hc : (P.info.nth t).proofKey ∈ P.cells.completedProofs
      · refine ⟨?_, fun q hp hw => absurd hw (h t ht hc q hp).2⟩
        rintro q hp (hopen | hw)
        · -- an open pending deadline would be the first one with sectors
          have hq := (P.onSchedule.isOpen_nth_iff hp.1).mp hopen
          have htq : t = q := by
            by_contra hne
            have h1 := ht.1
            have := ht.2.2 q hp.1 (by omega)
            have := hp.2.1
            omega
          exact absurd (htq ▸ hc) hp.2.2
        · exact absurd hw (h t ht hc q hp).1
      · exact yieldsInTime_of_not_completed ht hc
    · rw [not_exists] at hex
      exact ⟨fun q hp => absurd hp (hex q), fun q hp => absurd hp (hex q)⟩

end AnsweredPoll

/-- Deadline 0 of 48 is open for one more epoch, deadline 1 follows. -/
def lastEpochOfDeadline0 : DeadlineInfo where
  currentEpoch := 59
  periodStart := 0
  index := 0
  opensAt := 0
  closesAt := 60
  wPoStPeriodDeadlines := 48
  wPoStProvingPeriod := 2880
  wPoStChallengeWindow := 60

/-- Deadlines 0 and 1 have sectors. -/
def adjacentSectors (i : Nat) : Nat := if i < 2 then 1 else 0

/-- The cache after Lotus answered for every deadline. -/
def adjacentCache : SectorCache :=
  SectorCache.refreshFullSectorCache defaultPolicy ⟨∅, 0⟩ lastEpochOfDeadline0
    fun i => some (adjacentSectors i)

theorem adjacentCache_accurate : adjacentCache.Accurate 48 adjacentSectors :=
  SectorCache.accurate_refreshFullSectorCache_empty rfl (by decide)

/-- Deadlines 0 and 1 have sectors and the proof of deadline 0 is recorded. -/
def adjacentDeadlines : AnsweredPoll where
  cfg := ⟨defaultPolicy, true, 0⟩
  cells := { current := .available, completedProofs := {⟨0, 0⟩}, sectorCache := adjacentCache }
  info := lastEpochOfDeadline0
  sectors := adjacentSectors
  onSchedule := by constructor <;> decide
  accurate := adjacentCache_accurate
  no_monitor := rfl
  no_win := by simp

/-- Thirty seconds before deadline 1 opens the GPU is still AVAILABLE. -/
theorem adjacentDeadlines_not_yieldsInTime : ¬ adjacentDeadlines.YieldsInTime := by
  intro h
  have hfirst : adjacentDeadlines.info.IsFirstWithSectors adjacentDeadlines.sectors 0 :=
    ⟨le_rfl, by decide, fun r _ hr => absurd hr (Nat.not_lt_zero r)⟩
  have hrecorded : (adjacentDeadlines.info.nth 0).proofKey ∈
      adjacentDeadlines.cells.completedProofs := by decide
  have hpending : adjacentDeadlines.Pending 1 := ⟨by decide, by decide, by decide⟩
  have hwithin : adjacentDeadlines.OpensWithin 120 1 := ⟨by decide, by decide⟩
  exact h.1 1 hpending (Or.inr hwithin) (AnsweredPoll.after_eq_available hfirst hrecorded)

end OpenModel.Scheduler
