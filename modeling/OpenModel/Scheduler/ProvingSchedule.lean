import OpenModel.Scheduler.LookAhead

/-!
# The proving schedule of a miner

All deadlines of a miner, numbered through from the first one of some proving period: deadline
`t` opens `t` windows after the start, and Lotus reports at every epoch the one whose window
contains it. `DeadlineInfo.nth` counts from one report; here the numbers are the same in every
report, so that polls at different epochs can be compared.

## Main results

- `ProvingSchedule.onSchedule_infoAt`: what Lotus reports is on schedule
- `ProvingSchedule.lookAhead_eq_deadline`: what the look-ahead evaluates at an epoch
- `ProvingSchedule.poll_cases`: what a poll at an epoch does
-/

namespace OpenModel.Scheduler

/-- Deadlines of one length, `deadlines` to a proving period. -/
structure ProvingSchedule where
  start : Int
  deadlines : Nat
  window : Int
  deadlines_pos : 0 < deadlines
  window_pos : 0 < window

namespace ProvingSchedule

variable (S : ProvingSchedule)

/-- The index of deadline `t` in its period. -/
def indexOf (t : Int) : Nat := (t % S.deadlines).toNat

/-- Deadline `t`, seen at `epoch`. -/
def deadline (t epoch : Int) : DeadlineInfo where
  currentEpoch := epoch
  periodStart := S.start + t / S.deadlines * (S.deadlines * S.window)
  index := S.indexOf t
  opensAt := S.start + t * S.window
  closesAt := S.start + t * S.window + S.window
  wPoStPeriodDeadlines := S.deadlines
  wPoStProvingPeriod := S.deadlines * S.window
  wPoStChallengeWindow := S.window

/-- The number of the deadline whose window contains `epoch`. -/
def current (epoch : Int) : Int := (epoch - S.start) / S.window

/-- What Lotus reports at `epoch`. -/
def infoAt (epoch : Int) : DeadlineInfo := S.deadline (S.current epoch) epoch

/-- 48 deadlines of 60 epochs; the first one opens at epoch 0. -/
def chain : ProvingSchedule := ⟨0, 48, 60, by decide, by decide⟩

/-- Lotus answers every query of a poll at `epoch`. -/
def answersAt (sectors : Nat → Nat) (epoch : Int) : LotusAnswers :=
  ⟨some (S.infoAt epoch), fun i => some (sectors i)⟩

/-- Deadline `t` is the first one with sectors from deadline `s` on. -/
def IsFirst (sectors : Nat → Nat) (s t : Int) : Prop :=
  s ≤ t ∧ 0 < sectors (S.indexOf t) ∧ ∀ r, s ≤ r → r < t → sectors (S.indexOf r) = 0

variable {S} {sectors : Nat → Nat} {r s t e e' : Int}

theorem deadlines_cast_pos : 0 < (S.deadlines : Int) := by exact_mod_cast S.deadlines_pos

theorem cast_indexOf : (S.indexOf t : Int) = t % S.deadlines :=
  Int.toNat_of_nonneg (Int.emod_nonneg t (by have := S.deadlines_pos; omega))

theorem indexOf_lt : S.indexOf t < S.deadlines := by
  have hlt := Int.emod_lt_of_pos t S.deadlines_cast_pos
  rw [← cast_indexOf] at hlt
  exact_mod_cast hlt

/-- Deadlines in the order of their numbers. -/
theorem indexOf_add (s : Int) (k : Nat) :
    S.indexOf (s + k) = (S.indexOf s + k) % S.deadlines := by
  have hcast : (S.indexOf (s + k) : Int) = ((S.indexOf s + k) % S.deadlines : Nat) := by
    rw [cast_indexOf, Int.natCast_mod, Nat.cast_add, cast_indexOf, Int.emod_add_emod]
  exact_mod_cast hcast

theorem div_add (s : Int) (k : Nat) :
    (s + k) / S.deadlines = s / S.deadlines + ((S.indexOf s + k) / S.deadlines : Nat) := by
  have hn := S.deadlines_cast_pos
  rw [Int.natCast_div, Nat.cast_add, cast_indexOf]
  have hsplit : s + k = s % S.deadlines + k + s / S.deadlines * S.deadlines := by
    calc s + k = s % S.deadlines + S.deadlines * (s / S.deadlines) + k := by
          rw [Int.emod_add_mul_ediv]
      _ = s % S.deadlines + k + s / S.deadlines * S.deadlines := by ring
  conv_lhs => rw [hsplit]
  rw [Int.add_mul_ediv_right _ _ (by omega), Int.add_comm]

/-- Counting on from one report gives the deadlines of the schedule. -/
theorem nth_deadline (s e : Int) (k : Nat) :
    (S.deadline s e).nth (S.indexOf s + k) = S.deadline (s + k) e := by
  have hopen : S.start + s / S.deadlines * (S.deadlines * S.window) +
      ((S.indexOf s + k : Nat) : Int) * S.window = S.start + (s + k) * S.window := by
    have hsplit := Int.emod_add_mul_ediv s S.deadlines
    rw [Nat.cast_add, cast_indexOf]
    calc S.start + s / S.deadlines * (S.deadlines * S.window) + (s % S.deadlines + k) * S.window
        = S.start + (s % S.deadlines + S.deadlines * (s / S.deadlines) + k) * S.window := by ring
      _ = S.start + (s + k) * S.window := by rw [hsplit]
  have hstart : S.start + s / S.deadlines * (S.deadlines * S.window) +
      ((S.indexOf s + k) / S.deadlines : Nat) * (S.deadlines * S.window) =
      S.start + (s + k) / S.deadlines * (S.deadlines * S.window) := by
    rw [div_add]
    ring
  simp only [deadline, DeadlineInfo.nth]
  rw [hopen, hstart, indexOf_add]

/-- **Reports**: Lotus reports the deadline that is open, on a gapless schedule. -/
theorem onSchedule_infoAt (S : ProvingSchedule) (e : Int) : (S.infoAt e).OnSchedule where
  index_lt := indexOf_lt
  opensAt_eq := by
    have hnth := congrArg DeadlineInfo.opensAt (nth_deadline (S := S) (S.current e) e 0)
    simp only [DeadlineInfo.nth, Nat.add_zero, Nat.cast_zero, Int.add_zero] at hnth
    exact hnth.symm
  closesAt_eq := rfl
  provingPeriod_eq := rfl
  opened := by
    have := Int.ediv_mul_le (e - S.start) (by have := S.window_pos; omega : S.window ≠ 0)
    simp only [infoAt, deadline, current]
    omega
  not_closed := by
    have hlt := Int.lt_ediv_add_one_mul_self (e - S.start) S.window_pos
    have hsplit : ((e - S.start) / S.window + 1) * S.window =
        (e - S.start) / S.window * S.window + S.window := by ring
    simp only [infoAt, deadline, current]
    omega

/-- The deadline of an epoch that comes no later than the opening of deadline `t`. -/
theorem current_le (h : e ≤ S.start + t * S.window) : S.current e ≤ t := by
  refine Int.ediv_le_of_le_mul S.window_pos ?_
  omega

/-- A deadline that is not over. -/
theorem lt_closesAt (h : S.current e ≤ t) (e' : Int) : e < (S.deadline t e').closesAt := by
  have hlt := Int.lt_ediv_add_one_mul_self (e - S.start) S.window_pos
  have hle := Int.mul_le_mul_of_nonneg_right (show S.current e + 1 ≤ t + 1 by omega)
    S.window_pos.le
  have hsplit : (t + 1) * S.window = t * S.window + S.window := by ring
  simp only [current] at hle
  simp only [deadline]
  omega

theorem current_mono (h : e ≤ e') : S.current e ≤ S.current e' :=
  Int.ediv_le_ediv S.window_pos (by omega)

/-- Seen from a later deadline that does not go past it. -/
theorem IsFirst.mono (hf : S.IsFirst sectors s t) (hle : s ≤ r) (hr : r ≤ t) :
    S.IsFirst sectors r t :=
  ⟨hr, hf.2.1, fun u hu hlt => hf.2.2 u (by omega) hlt⟩

theorem IsFirst.unique (h : S.IsFirst sectors s t) (h' : S.IsFirst sectors s r) : t = r := by
  obtain ⟨hle, hpos, hmin⟩ := h
  obtain ⟨hle', hpos', hmin'⟩ := h'
  rcases Int.lt_trichotomy t r with hlt | heq | hlt
  · have := hmin' t hle hlt
    omega
  · exact heq
  · have := hmin r hle' hlt
    omega

/-- Where some deadline has sectors, one comes first. -/
theorem exists_isFirst (hsome : ∃ i < S.deadlines, 0 < sectors i) (s : Int) :
    ∃ t, S.IsFirst sectors s t := by
  classical
  obtain ⟨i, hi, hpos⟩ := hsome
  have hidx := indexOf_lt (S := S) (t := s)
  have hex : ∃ k : Nat, 0 < sectors (S.indexOf (s + k)) := by
    refine ⟨i + S.deadlines - S.indexOf s, ?_⟩
    rwa [indexOf_add, Nat.add_sub_cancel' (by omega), Nat.add_mod_right, Nat.mod_eq_of_lt hi]
  refine ⟨s + Nat.find hex, by omega, Nat.find_spec hex, fun r hle hlt => ?_⟩
  have hnot := Nat.find_min hex (m := (r - s).toNat) (by omega)
  have hr : s + ((r - s).toNat : Int) = r := by omega
  rw [hr] at hnot
  omega

/-- In a report, the first deadline with sectors by its number there. -/
theorem IsFirst.isFirstWithSectors (hf : S.IsFirst sectors (S.current e) t) :
    (S.infoAt e).IsFirstWithSectors sectors (S.indexOf (S.current e) + (t - S.current e).toNat) ∧
      (S.infoAt e).nth (S.indexOf (S.current e) + (t - S.current e).toNat) = S.deadline t e := by
  obtain ⟨hle, hpos, hmin⟩ := hf
  have ht : S.current e + ((t - S.current e).toNat : Int) = t := by omega
  refine ⟨⟨Nat.le_add_right _ _, ?_, fun q hq hlt => ?_⟩, ?_⟩
  · show 0 < sectors (_ % S.deadlines)
    rwa [← indexOf_add, ht]
  · obtain ⟨k, rfl⟩ := Nat.exists_eq_add_of_le (show S.indexOf (S.current e) ≤ q from hq)
    show sectors (_ % S.deadlines) = 0
    rw [← indexOf_add]
    exact hmin _ (by omega) (by omega)
  · rw [infoAt, nth_deadline, ht]

variable {p : YieldPolicy} {c : SectorCache}

/-- **Evaluated deadline**: the first one with sectors by the counts that the poll goes by. -/
theorem lookAhead_eq_deadline (hk : c.Keyed S.deadlines)
    (hf : S.IsFirst (c.reads p (S.infoAt e) sectors) (S.current e) t) :
    (c.lookAhead p (S.infoAt e) fun i => some (sectors i)).1 = some (S.deadline t e) := by
  obtain ⟨hfirst, hnth⟩ := hf.isFirstWithSectors
  rw [SectorCache.lookAhead_eq_nth_of_reads (S.onSchedule_infoAt e) hk hfirst, hnth]

/-- Every poll evaluates the first deadline with sectors or finds none. -/
theorem lookAhead_cases (hk : c.Keyed S.deadlines) (p : YieldPolicy) (sectors : Nat → Nat)
    (e : Int) :
    (∃ t, S.IsFirst (c.reads p (S.infoAt e) sectors) (S.current e) t ∧
      (c.lookAhead p (S.infoAt e) fun i => some (sectors i)).1 = some (S.deadline t e)) ∨
    (∀ i < S.deadlines, c.reads p (S.infoAt e) sectors i = 0) ∧
      (c.lookAhead p (S.infoAt e) fun i => some (sectors i)).1 = none := by
  by_cases hsome : ∃ i < S.deadlines, 0 < c.reads p (S.infoAt e) sectors i
  · obtain ⟨t, hf⟩ := exists_isFirst hsome (S.current e)
    exact .inl ⟨t, hf, lookAhead_eq_deadline hk hf⟩
  · have hz : ∀ i < S.deadlines, c.reads p (S.infoAt e) sectors i = 0 := by
      intro i hi
      by_contra hne
      exact hsome ⟨i, hi, Nat.pos_of_ne_zero hne⟩
    exact .inr ⟨hz, SectorCache.lookAhead_eq_none_of_reads (S.onSchedule_infoAt e) hk hz⟩

variable {cfg : Config} {cells : Cells}

/-- The cache that a poll leaves. -/
def cacheAfter (cfg : Config) (S : ProvingSchedule) (sectors : Nat → Nat) (e : Int)
    (cells : Cells) : SectorCache :=
  (cells.sectorCache.lookAhead cfg.policy (S.infoAt e) fun i => some (sectors i)).2

theorem keyed_cacheAfter (hk : cells.sectorCache.Keyed S.deadlines) :
    (cacheAfter cfg S sectors e cells).Keyed S.deadlines :=
  hk.lookAhead (S.onSchedule_infoAt e).onPeriod.numDeadlines_eq indexOf_lt

/-- **One poll**: without a win and without a proof monitor it applies the policy to the first
deadline with sectors, or stays AVAILABLE when there is none. -/
theorem poll_cases (hmonitor : cells.proofMonitorActive = false)
    (hwin : cells.current ≠ .winningPost) (hk : cells.sectorCache.Keyed S.deadlines)
    (cfg : Config) (sectors : Nat → Nat) (e : Int) :
    (∃ t, S.IsFirst (cells.sectorCache.reads cfg.policy (S.infoAt e) sectors) (S.current e) t ∧
      checkWindowPost cfg cells (S.answersAt sectors e) =
        evaluateAndApply cfg { cells with sectorCache := cacheAfter cfg S sectors e cells }
          (S.deadline t e)) ∨
    (∀ i < S.deadlines, cells.sectorCache.reads cfg.policy (S.infoAt e) sectors i = 0) ∧
      checkWindowPost cfg cells (S.answersAt sectors e) =
        (Cells.applyDecisionUnlessWinning
          { cells with sectorCache := cacheAfter cfg S sectors e cells } noSectorsDecision, none) := by
  have hlookAhead := lookAhead_cases hk cfg.policy sectors e
  simp only [checkWindowPost, answersAt, hmonitor, hwin, Bool.false_eq_true, if_false, cacheAfter]
  generalize cells.sectorCache.lookAhead cfg.policy (S.infoAt e) (fun i => some (sectors i)) = l
    at hlookAhead ⊢
  obtain ⟨target, cache⟩ := l
  obtain ⟨t, hf, rfl⟩ | ⟨hz, rfl⟩ := hlookAhead
  · exact .inl ⟨t, hf, rfl⟩
  · exact .inr ⟨hz, rfl⟩

end ProvingSchedule

end OpenModel.Scheduler
