import OpenModel.Scheduler.Policy

/-!
# Zones of the policy

One deadline window seen over time: far from it the policy says AVAILABLE, then YIELDING, then
WINDOW_POST until the window closes. The decision carries a countdown to the next zone, which is
computed from the threshold of that zone alone, while the zones are cut by both thresholds.
`applyDefaults` fills in an absent threshold without looking at the other one.

## Main results

- `YieldPolicy.severityRises`: the zones follow each other in order, whatever the thresholds
- `YieldPolicy.zonesExact_iff`: the thresholds for which the countdown is exact
-/

namespace OpenModel.Scheduler

/-- AVAILABLE, then YIELDING, then WINDOW_POST. -/
def GpuState.severity : GpuState → Nat
  | .yielding => 1
  | .windowPost => 2
  | .winningPost => 3
  | _ => 0

/-- `applyDefaults`. -/
def YieldPolicy.applyDefaults (p : YieldPolicy) : YieldPolicy :=
  { p with
    windowPost := p.windowPost.applyDefaults
    winningPost := p.winningPost.applyDefaults }

namespace YieldPolicy

variable (p : YieldPolicy) (info : DeadlineInfo) (e e' : Int)

def stateAt : GpuState := (p.evaluateWindowPost (info.at e)).state

def countdownAt : Int := (p.evaluateWindowPost (info.at e)).secondsUntilNextChange

/-- Up to the end of a window the policy never asks for less than before. -/
def SeverityRises : Prop :=
  ∀ (info : DeadlineInfo) (e e' : Int), info.opensAt < info.closesAt → e ≤ e' →
    e' < info.closesAt → (p.stateAt info e).severity ≤ (p.stateAt info e').severity

/-- The countdown of an AVAILABLE or YIELDING decision is exact: before it ends the state is the
same, and at the first epoch at which it has ended the state is another one. -/
def CountdownExact : Prop :=
  ∀ (info : DeadlineInfo) (e : Int), info.opensAt < info.closesAt → e < info.closesAt →
    p.stateAt info e = .available ∨ p.stateAt info e = .yielding →
    (∀ e', e < e' → (e' - e) * epochDuration < p.countdownAt info e →
      p.stateAt info e' = p.stateAt info e) ∧
    ∀ e', e < e' → p.countdownAt info e ≤ (e' - e) * epochDuration →
      (∀ e'', e < e'' → p.countdownAt info e ≤ (e'' - e) * epochDuration → e' ≤ e'') →
      p.stateAt info e' ≠ p.stateAt info e

/-- Both for every deadline window. -/
def ZonesExact : Prop := p.SeverityRises ∧ p.CountdownExact

/-- In whole epochs the graceful threshold is not the shorter one, and neither threshold that
bounds a zone is negative. -/
def ThresholdsOrdered : Prop :=
  let graceful := p.windowPost.gracefulYieldThresholdSec
  let hardStop := p.windowPost.hardStopThresholdSec
  0 ≤ graceful ∧ hardStop / epochDuration ≤ graceful / epochDuration ∧
    (0 ≤ hardStop ∨ graceful < epochDuration)

instance : Decidable p.ThresholdsOrdered :=
  inferInstanceAs (Decidable (0 ≤ _ ∧ _ ≤ _ ∧ (0 ≤ _ ∨ _ < _)))

variable {p info e e'}

theorem stateAt_of_opened (ho : info.opensAt ≤ e) (he : e < info.closesAt) :
    p.stateAt info e = .windowPost :=
  evaluateWindowPost_of_isOpen ((DeadlineInfo.isOpen_iff _).mpr ⟨ho, he⟩)

/-- Before the window opens the zones are cut by the seconds that are left. -/
theorem isOpen_at (ho : e < info.opensAt) :
    (info.at e).isOpen = false ∧
      (info.at e).secondsUntilOpen = (info.opensAt - e) * epochDuration := by
  refine ⟨?_, DeadlineInfo.secondsUntilOpen_of_le (Int.le_of_lt ho)⟩
  rw [← Bool.not_eq_true, DeadlineInfo.isOpen_iff]
  rintro ⟨h, -⟩
  exact absurd h (Int.not_le.mpr ho)

/-- AVAILABLE, before the window closes. -/
theorem stateAt_eq_available_iff (he : e < info.closesAt) :
    p.stateAt info e = .available ↔
      e < info.opensAt ∧
        p.windowPost.hardStopThresholdSec < (info.opensAt - e) * epochDuration ∧
        p.windowPost.gracefulYieldThresholdSec < (info.opensAt - e) * epochDuration := by
  by_cases ho : e < info.opensAt
  · obtain ⟨hclosed, hsec⟩ := isOpen_at ho
    rw [stateAt, evaluateWindowPost_state_eq_available_iff, hclosed, hsec]
    simp [ho]
  · rw [stateAt_of_opened (Int.not_lt.mp ho) he]
    simp [ho]

/-- YIELDING, before the window closes. -/
theorem stateAt_eq_yielding_iff (he : e < info.closesAt) :
    p.stateAt info e = .yielding ↔
      e < info.opensAt ∧
        p.windowPost.hardStopThresholdSec < (info.opensAt - e) * epochDuration ∧
        (info.opensAt - e) * epochDuration ≤ p.windowPost.gracefulYieldThresholdSec := by
  by_cases ho : e < info.opensAt
  · obtain ⟨hclosed, hsec⟩ := isOpen_at ho
    by_cases hh : (info.at e).secondsUntilOpen ≤ p.windowPost.hardStopThresholdSec
    · rw [stateAt, evaluateWindowPost_of_hardStop hh]
      simp only [reduceCtorEq, false_iff]
      omega
    · by_cases hg : (info.at e).secondsUntilOpen ≤ p.windowPost.gracefulYieldThresholdSec
      · rw [stateAt, evaluateWindowPost_of_graceful hclosed (Int.not_le.mp hh) hg]
        simp only [true_iff]
        omega
      · rw [stateAt, evaluateWindowPost_of_safe hclosed (Int.not_le.mp hh) (Int.not_le.mp hg)]
        simp only [reduceCtorEq, false_iff]
        omega
  · rw [stateAt_of_opened (Int.not_lt.mp ho) he]
    simp [ho]

/-- The countdown of AVAILABLE. -/
theorem countdownAt_of_available (he : e < info.closesAt) (h : p.stateAt info e = .available) :
    p.countdownAt info e =
      (info.opensAt - e) * epochDuration - p.windowPost.gracefulYieldThresholdSec := by
  obtain ⟨ho, hh, hg⟩ := (stateAt_eq_available_iff he).mp h
  obtain ⟨hclosed, hsec⟩ := isOpen_at ho
  rw [countdownAt, evaluateWindowPost]
  simp [hclosed, hsec, Int.not_le.mpr hh, Int.not_le.mpr hg]

/-- The countdown of YIELDING. -/
theorem countdownAt_of_yielding (he : e < info.closesAt) (h : p.stateAt info e = .yielding) :
    p.countdownAt info e =
      (info.opensAt - e) * epochDuration - p.windowPost.hardStopThresholdSec := by
  obtain ⟨ho, hh, hg⟩ := (stateAt_eq_yielding_iff he).mp h
  obtain ⟨hclosed, hsec⟩ := isOpen_at ho
  rw [countdownAt, evaluateWindowPost]
  simp [hclosed, hsec, Int.not_le.mpr hh, hg]

theorem stateAt_cases (p : YieldPolicy) (info : DeadlineInfo) (e : Int) :
    p.stateAt info e = .available ∨ p.stateAt info e = .yielding ∨
      p.stateAt info e = .windowPost :=
  p.evaluateWindowPost_state_cases (info.at e)

/-- **Order**: the zones follow each other, whatever the thresholds. -/
theorem severityRises (p : YieldPolicy) : p.SeverityRises := by
  intro info e e' hw hle he'
  have he : e < info.closesAt := Int.lt_of_le_of_lt hle he'
  rcases p.stateAt_cases info e' with h' | h' | h'
  · have h : p.stateAt info e = .available := by
      rw [stateAt_eq_available_iff he]
      rw [stateAt_eq_available_iff he'] at h'
      simp only [epochDuration] at h' ⊢
      omega
    rw [h, h']
  · have h : p.stateAt info e ≠ .windowPost := by
      intro hwindow
      have hnot : p.stateAt info e ≠ .available ∧ p.stateAt info e ≠ .yielding := by
        rw [hwindow]
        decide
      rw [Ne, Ne, stateAt_eq_available_iff he, stateAt_eq_yielding_iff he] at hnot
      rw [stateAt_eq_yielding_iff he'] at h'
      simp only [epochDuration] at h' hnot
      omega
    rw [h']
    rcases p.stateAt_cases info e with h₀ | h₀ | h₀
    · rw [h₀]
      decide
    · rw [h₀]
    · exact absurd h₀ h
  · rw [h']
    rcases p.stateAt_cases info e with h₀ | h₀ | h₀ <;> rw [h₀] <;> decide

/-- Ordered thresholds make the countdown exact. -/
theorem countdownExact_of_ordered (h : p.ThresholdsOrdered) : p.CountdownExact := by
  obtain ⟨hg, hle, hh⟩ := h
  simp only [epochDuration] at hle hh
  rintro info e hw he (hstate | hstate)
  · rw [countdownAt_of_available he hstate, hstate]
    rw [stateAt_eq_available_iff he] at hstate
    simp only [epochDuration] at hstate ⊢
    refine ⟨fun e' hlt hs => ?_, fun e' hlt hs hfirst => ?_⟩
    · rw [stateAt_eq_available_iff (by omega)]
      simp only [epochDuration]
      omega
    · -- the countdown ends when the window opens, at the latest
      have hopen : e' ≤ info.opensAt := hfirst info.opensAt (by omega) (by omega)
      rw [Ne, stateAt_eq_available_iff (by omega)]
      simp only [epochDuration]
      omega
  · rw [countdownAt_of_yielding he hstate, hstate]
    rw [stateAt_eq_yielding_iff he] at hstate
    simp only [epochDuration] at hstate ⊢
    refine ⟨fun e' hlt hs => ?_, fun e' hlt hs hfirst => ?_⟩
    · rw [stateAt_eq_yielding_iff (by omega)]
      simp only [epochDuration]
      omega
    · have hopen : e' ≤ info.opensAt := hfirst info.opensAt (by omega) (by omega)
      rw [Ne, stateAt_eq_yielding_iff (by omega)]
      simp only [epochDuration]
      omega

/-- A countdown that goes past a change of the state is not exact. -/
theorem not_countdownExact (e e' : Int) (hw : info.opensAt < info.closesAt) (hlt : e < e')
    (he : e < info.closesAt) (hstate : p.stateAt info e = .available ∨ p.stateAt info e = .yielding)
    (hcountdown : (e' - e) * epochDuration < p.countdownAt info e)
    (hchanged : p.stateAt info e' ≠ p.stateAt info e) : ¬ p.CountdownExact :=
  fun hexact => hchanged ((hexact info e hw he hstate).1 e' hlt hcountdown)

/-- The window of deadline 0 opens at epoch 0 and closes at epoch 60. -/
theorem ordered_of_countdownExact (hexact : p.CountdownExact) : p.ThresholdsOrdered := by
  have hw : (deadline0At 0).opensAt < (deadline0At 0).closesAt := by decide
  have hopen : (deadline0At 0).opensAt = 0 := rfl
  have hclose : (deadline0At 0).closesAt = 60 := rfl
  have hat0 : p.stateAt (deadline0At 0) 0 = .windowPost := stateAt_of_opened (by decide) (by decide)
  have havailable {k : Int} (hk : 0 < k) (hh : p.windowPost.hardStopThresholdSec < k * 30)
      (hg : p.windowPost.gracefulYieldThresholdSec < k * 30) :
      p.stateAt (deadline0At 0) (-k) = .available := by
    rw [stateAt_eq_available_iff (by omega)]
    simp only [epochDuration]
    omega
  by_contra hnot
  rw [ThresholdsOrdered] at hnot
  simp only [epochDuration] at hnot
  by_cases hg : 0 ≤ p.windowPost.gracefulYieldThresholdSec
  · by_cases hle : p.windowPost.hardStopThresholdSec / 30 ≤
        p.windowPost.gracefulYieldThresholdSec / 30
    · -- YIELDING one epoch before the window, with a countdown beyond its opening
      have hyielding : p.stateAt (deadline0At 0) (-1) = .yielding := by
        rw [stateAt_eq_yielding_iff (by omega)]
        simp only [epochDuration]
        omega
      refine not_countdownExact _ 0 hw (by omega) (by omega) (.inr hyielding) ?_ ?_ hexact
      · rw [countdownAt_of_yielding (by omega) hyielding]
        simp only [epochDuration]
        omega
      · rw [hat0, hyielding]
        decide
    · -- AVAILABLE in the last epoch before the hard stop, with a countdown to the graceful yield
      have hlast := havailable (k := p.windowPost.hardStopThresholdSec / 30 + 1) (by omega)
        (by omega) (by omega)
      refine not_countdownExact _ (-(p.windowPost.hardStopThresholdSec / 30)) hw (by omega)
        (by omega) (.inl hlast) ?_ ?_ hexact
      · rw [countdownAt_of_available (by omega) hlast]
        simp only [epochDuration]
        omega
      · rw [hlast, Ne, stateAt_eq_available_iff (by omega)]
        simp only [epochDuration]
        omega
  · -- AVAILABLE up to the window, with a countdown beyond its opening
    have hlast := havailable (k := max p.windowPost.hardStopThresholdSec 0 / 30 + 1) (by omega)
      (by omega) (by omega)
    refine not_countdownExact _ 0 hw (by omega) (by omega) (.inl hlast) ?_ ?_ hexact
    · rw [countdownAt_of_available (by omega) hlast]
      simp only [epochDuration]
      omega
    · rw [hat0, hlast]
      decide

/-- **Exact condition**: for a configuration with its defaults, the zones are in order and the
countdown is exact if and only if the thresholds are ordered. -/
theorem zonesExact_iff (q : YieldPolicy) :
    q.applyDefaults.ZonesExact ↔ q.applyDefaults.ThresholdsOrdered :=
  ⟨fun h => ordered_of_countdownExact h.2,
    fun h => ⟨severityRises q.applyDefaults, countdownExact_of_ordered h⟩⟩

/-- The file sets a graceful threshold of one minute and nothing else. -/
def gracefulMinute : YieldPolicy where
  windowPost := ⟨60, 0, 0, false, 0⟩
  winningPost := ⟨0⟩
  failSafeOnDisconnect := true

/-- Five epochs before the window the countdown says 90 seconds, and the hard stop comes after
30. -/
theorem gracefulMinute_not_zonesExact : ¬ gracefulMinute.applyDefaults.ZonesExact := by
  rintro ⟨-, hexact⟩
  have hsame := (hexact (deadline0At 0) (-5) (by decide) (by decide) (.inl (by decide))).1 (-4)
    (by decide) (by decide)
  revert hsame
  decide

end YieldPolicy

end OpenModel.Scheduler
