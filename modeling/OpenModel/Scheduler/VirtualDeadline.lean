import OpenModel.Scheduler.LookAhead

/-!
# The virtual deadline is the next real one

Lotus steps from one deadline to the next: the index goes up by one, and after the last index of
a period it starts again with index 0 of the following period. The look-ahead jumps over the
deadlines without sectors in one go, from the position of the current one. Both arrive at the
same deadline, so the key under which its proof is recorded before it opens is the key under
which it is looked up once Lotus reports it.

## Main results

- `DeadlineInfo.OnPeriod.after_eq_nth`: stepping as Lotus does counts windows
- `DeadlineInfo.virtualDeadline_reported`: what the look-ahead evaluates, and its key
-/

namespace OpenModel.Scheduler

namespace DeadlineInfo

/-- The deadline that follows. -/
def next (info : DeadlineInfo) : DeadlineInfo :=
  if info.index + 1 < info.wPoStPeriodDeadlines then
    { info with
      index := info.index + 1
      opensAt := info.periodStart + (info.index + 1 : Nat) * info.wPoStChallengeWindow
      closesAt := info.periodStart + (info.index + 1 : Nat) * info.wPoStChallengeWindow +
        info.wPoStChallengeWindow }
  else
    { info with
      periodStart := info.periodStart + info.wPoStProvingPeriod
      index := 0
      opensAt := info.periodStart + info.wPoStProvingPeriod
      closesAt := info.periodStart + info.wPoStProvingPeriod + info.wPoStChallengeWindow }

/-- The deadline `k` steps later. -/
def after (info : DeadlineInfo) : Nat → DeadlineInfo
  | 0 => info
  | k + 1 => (info.after k).next

/-- The deadline `k` steps later is the first one with sectors after this one. -/
def IsNextWithSectors (info : DeadlineInfo) (sectors : Nat → Nat) (k : Nat) : Prop :=
  0 < k ∧ 0 < sectors (info.after k).index ∧
    ∀ j, 0 < j → j < k → sectors (info.after j).index = 0

variable {info : DeadlineInfo} {sectors : Nat → Nat} {q k : Nat}

/-- A numbered deadline by its period and its index. -/
theorem nth_of_index_lt {a b : Nat} (hb : b < info.wPoStPeriodDeadlines)
    (hq : b + info.wPoStPeriodDeadlines * a = q) :
    info.nth q =
      { info with
        periodStart := info.periodStart + a * info.wPoStProvingPeriod
        index := b
        opensAt := info.periodStart + q * info.wPoStChallengeWindow
        closesAt := info.periodStart + q * info.wPoStChallengeWindow +
          info.wPoStChallengeWindow } := by
  obtain ⟨hdiv, hmod⟩ := (Nat.div_mod_unique (by omega)).mpr ⟨hq, hb⟩
  rw [nth, hdiv, hmod]

namespace OnPeriod

/-- The deadline after a numbered one. -/
theorem next_nth (h : info.OnPeriod) (q : Nat) : (info.nth q).next = info.nth (q + 1) := by
  have hn : 0 < info.wPoStPeriodDeadlines := by have := h.index_lt; omega
  have hpp := h.provingPeriod_eq
  obtain ⟨a, b, hb, hq⟩ : ∃ a b, b < info.wPoStPeriodDeadlines ∧
      b + info.wPoStPeriodDeadlines * a = q := ⟨_, _, Nat.mod_lt q hn, Nat.mod_add_div q _⟩
  rw [nth_of_index_lt hb hq]
  by_cases hlast : b + 1 < info.wPoStPeriodDeadlines
  · have hopen : info.periodStart + a * info.wPoStProvingPeriod +
        (b + 1 : Nat) * info.wPoStChallengeWindow =
        info.periodStart + (q + 1 : Nat) * info.wPoStChallengeWindow := by
      rw [hpp, ← hq]
      push_cast
      ring
    rw [nth_of_index_lt hlast (by omega : b + 1 + info.wPoStPeriodDeadlines * a = q + 1), next,
      if_pos hlast, hopen]
  · have hb' : b + 1 = info.wPoStPeriodDeadlines := by omega
    have hstart : info.periodStart + a * info.wPoStProvingPeriod + info.wPoStProvingPeriod =
        info.periodStart + (a + 1 : Nat) * info.wPoStProvingPeriod := by
      push_cast
      ring
    have hq' : 0 + info.wPoStPeriodDeadlines * (a + 1) = q + 1 := by
      rw [Nat.mul_succ]
      omega
    have hopen : info.periodStart + (a + 1 : Nat) * info.wPoStProvingPeriod =
        info.periodStart + (q + 1 : Nat) * info.wPoStChallengeWindow := by
      rw [hpp, ← hq']
      push_cast
      ring
    rw [nth_of_index_lt hn hq', next, if_neg hlast]
    dsimp only
    rw [hstart, hopen]

/-- The deadline after the current one. -/
theorem next_eq_nth (h : info.OnPeriod) : info.next = info.nth (info.index + 1) := by
  have hidx := h.index_lt
  have hpp := h.provingPeriod_eq
  by_cases hlast : info.index + 1 < info.wPoStPeriodDeadlines
  · rw [next, if_pos hlast,
      nth_of_index_lt hlast (by omega : info.index + 1 + info.wPoStPeriodDeadlines * 0 = _)]
    simp
  · have hone : 0 + info.wPoStPeriodDeadlines * 1 = info.index + 1 := by omega
    have hopen : info.periodStart + info.wPoStProvingPeriod =
        info.periodStart + (info.index + 1 : Nat) * info.wPoStChallengeWindow := by
      rw [hpp, ← hone]
      push_cast
      ring
    rw [next, if_neg hlast, nth_of_index_lt (by omega) hone, ← hopen]
    simp

/-- **Stepping**: `k` steps of Lotus are `k` windows. -/
theorem after_eq_nth (h : info.OnPeriod) (hk : 0 < k) :
    info.after k = info.nth (info.index + k) := by
  induction k with
  | zero => omega
  | succ k ih =>
    show (info.after k).next = _
    by_cases hz : k = 0
    · subst hz
      exact h.next_eq_nth
    · rw [ih (by omega), h.next_nth, Nat.add_assoc]

theorem index_after (h : info.OnPeriod) (hk : 0 < k) :
    (info.after k).index = (info.index + k) % info.wPoStPeriodDeadlines := by
  rw [h.after_eq_nth hk, nth]

/-- A deadline with sectors comes again within one period. -/
theorem exists_after (h : info.OnPeriod)
    (hsome : ∃ i < info.wPoStPeriodDeadlines, i ≠ info.index ∧ 0 < sectors i) :
    ∃ k, k < info.wPoStPeriodDeadlines ∧ 0 < k ∧ 0 < sectors (info.after k).index := by
  obtain ⟨i, hi, hne, hpos⟩ := hsome
  have hidx := h.index_lt
  by_cases hlt : info.index < i
  · refine ⟨i - info.index, by omega, by omega, ?_⟩
    rwa [h.index_after (by omega), Nat.add_sub_cancel' (by omega), Nat.mod_eq_of_lt hi]
  · refine ⟨i + info.wPoStPeriodDeadlines - info.index, by omega, by omega, ?_⟩
    rwa [h.index_after (by omega), Nat.add_sub_cancel' (by omega), Nat.add_mod_right,
      Nat.mod_eq_of_lt hi]

theorem exists_isNextWithSectors (h : info.OnPeriod)
    (hsome : ∃ i < info.wPoStPeriodDeadlines, i ≠ info.index ∧ 0 < sectors i) :
    ∃ k, info.IsNextWithSectors sectors k ∧ k < info.wPoStPeriodDeadlines := by
  classical
  obtain ⟨k₀, hlt₀, hk₀⟩ := h.exists_after hsome
  have hex : ∃ k, 0 < k ∧ 0 < sectors (info.after k).index := ⟨k₀, hk₀⟩
  refine ⟨Nat.find hex, ⟨(Nat.find_spec hex).1, (Nat.find_spec hex).2, ?_⟩,
    Nat.lt_of_le_of_lt (Nat.find_min' hex hk₀) hlt₀⟩
  intro j hj hlt
  have hnot := Nat.find_min hex hlt
  simp only [not_and, Nat.not_lt] at hnot
  exact Nat.le_zero.mp (hnot hj)

/-- Each step opens one window later. -/
theorem opensAt_after (h : info.OnPeriod)
    (hopen : info.opensAt = info.periodStart + info.index * info.wPoStChallengeWindow) (k : Nat) :
    (info.after k).opensAt = info.opensAt + k * info.wPoStChallengeWindow := by
  by_cases hk : k = 0
  · subst hk
    simp [after]
  · rw [h.after_eq_nth (by omega), nth, hopen]
    push_cast
    ring

/-- The next deadline with sectors is the earliest one. -/
theorem opensAt_after_le (h : info.OnPeriod)
    (hopen : info.opensAt = info.periodStart + info.index * info.wPoStChallengeWindow)
    (hw : 0 < info.wPoStChallengeWindow) {j k : Nat} (hjk : j ≤ k) :
    (info.after j).opensAt ≤ (info.after k).opensAt := by
  have hcast : (j : Int) ≤ k := by exact_mod_cast hjk
  have := Int.mul_le_mul_of_nonneg_right hcast hw.le
  rw [h.opensAt_after hopen, h.opensAt_after hopen]
  omega

end OnPeriod

variable {cfg : Config} {c : Cells} {rpc : SectorAnswers}

/-- A complete and accurate cache covers the period, whatever the check of the current deadline
fetches. -/
theorem covers_of_accurate (h : info.OnPeriod)
    (hc : c.sectorCache.Accurate info.wPoStPeriodDeadlines sectors)
    (hahead : (c.sectorCache.deadlineHasNoSectors cfg.policy info rpc).1 = true) :
    (c.sectorCache.deadlineHasNoSectors cfg.policy info rpc).2.Covers info := by
  intro _ i hi
  obtain ⟨hcur, hother⟩ := SectorCache.lookup_deadlineHasNoSectors_of_empty hahead
  by_cases hne : i = info.index
  · subst hne
    obtain ⟨e, he, -⟩ := Option.map_eq_some_iff.mp hcur
    rw [he, Option.isSome_some]
  · obtain ⟨e, he, -⟩ := hc i (h.numDeadlines_eq ▸ hi)
    rw [hother i hne, he, Option.isSome_some]

/-- The look-ahead goes where Lotus goes. -/
theorem lookAhead_eq_after (h : info.OnPeriod)
    (hc : c.sectorCache.Accurate info.wPoStPeriodDeadlines sectors)
    (hahead : (c.sectorCache.deadlineHasNoSectors cfg.policy info rpc).1 = true)
    (hk : info.IsNextWithSectors sectors k) (hlt : k < info.wPoStPeriodDeadlines) :
    (c.sectorCache.lookAhead cfg.policy info rpc).1 = some (info.after k) := by
  obtain ⟨hk₀, hpos, hmin⟩ := hk
  have hidx := h.index_lt
  have hn : 0 < info.wPoStPeriodDeadlines := by omega
  have hknown : ∀ r, c.sectorCache.known rpc (r % info.wPoStPeriodDeadlines) =
      some (sectors (r % info.wPoStPeriodDeadlines)) := by
    intro r
    obtain ⟨e, he, hs⟩ := hc _ (Nat.mod_lt r hn)
    rw [SectorCache.known, he, Option.map_some, hs, Option.some_or]
  rw [SectorCache.lookAhead_of_empty hahead,
    SectorCache.findNextSectorDeadline_consulted (covers_of_accurate h hc hahead)
      (h.numDeadlines_eq ▸ hidx) hahead,
    h.find?_scanOrder (q := info.index + k) (by omega) (by omega) ?_ ?_, Option.map_some,
    h.virtualInfo_eq_nth (by omega) (by omega), h.after_eq_nth hk₀]
  · rw [h.index_after hk₀] at hpos
    simpa [hknown] using hpos
  · intro r hr₁ hr₂
    have hzero := hmin (r - info.index) (by omega) (by omega)
    rw [h.index_after (by omega), Nat.add_sub_cancel' (by omega)] at hzero
    simp [hknown, hzero]

/-- A poll launches the proof monitor for the deadline it evaluates. -/
theorem awaited_eq {target awaited : DeadlineInfo}
    (htarget : (c.sectorCache.lookAhead cfg.policy info rpc).1 = some target)
    (h : (checkWindowPost cfg c ⟨some info, rpc⟩).2 = some awaited) : awaited = target := by
  simp only [checkWindowPost] at h
  generalize c.sectorCache.lookAhead cfg.policy info rpc = found at h htarget
  obtain ⟨evaluated, cache⟩ := found
  dsimp only at htarget
  subst htarget
  split at h
  · cases h
  · split at h
    · cases h
    · simp only [evaluateAndApply] at h
      split at h
      · cases h
      · split at h
        · exact (Option.some.inj h).symm
        · cases h

/-- A recorded proof is found under its key. -/
theorem mem_markProofCompleted (completed : Finset ProofKey) (key : ProofKey) :
    key ∈ markProofCompleted completed key := by
  unfold markProofCompleted
  split <;> simp

/-- **Virtual deadline**: on a complete and accurate cache the look-ahead evaluates the deadline
that Lotus comes to first among those with sectors, in this period or the next. It is the
earliest one to open, and a proof awaited for it is recorded under the key under which it is
looked up at any epoch at which Lotus reports it. -/
theorem virtualDeadline_reported (h : info.OnPeriod)
    (hopen : info.opensAt = info.periodStart + info.index * info.wPoStChallengeWindow)
    (hc : c.sectorCache.Accurate info.wPoStPeriodDeadlines sectors)
    (hempty : sectors info.index = 0) (hsome : ∃ i < info.wPoStPeriodDeadlines, 0 < sectors i)
    (hahead : (c.sectorCache.deadlineHasNoSectors cfg.policy info rpc).1 = true) :
    ∃ k, info.IsNextWithSectors sectors k ∧
      (c.sectorCache.lookAhead cfg.policy info rpc).1 = some (info.after k) ∧
      (0 < info.wPoStChallengeWindow → info.opensAt < (info.after k).opensAt ∧
        ∀ j, 0 < j → 0 < sectors (info.after j).index →
          (info.after k).opensAt ≤ (info.after j).opensAt) ∧
      ∀ awaited, (checkWindowPost cfg c ⟨some info, rpc⟩).2 = some awaited →
        ∀ completed epoch, awaited.proofKey = ((info.after k).at epoch).proofKey ∧
          ((info.after k).at epoch).proofKey ∈
            markProofCompleted completed awaited.proofKey := by
  obtain ⟨i, hi, hpos⟩ := hsome
  have hne : i ≠ info.index := by
    rintro rfl
    omega
  obtain ⟨k, hk, hlt⟩ := h.exists_isNextWithSectors ⟨i, hi, hne, hpos⟩
  have htarget := lookAhead_eq_after h hc hahead hk hlt
  refine ⟨k, hk, htarget, fun hw => ⟨?_, fun j hj hposj => ?_⟩, fun awaited ha completed epoch => ?_⟩
  · have hcast : (0 : Int) < k := by exact_mod_cast hk.1
    have := Int.mul_pos hcast hw
    rw [h.opensAt_after hopen]
    omega
  · have hkj : k ≤ j := by
      by_contra hjk
      have := hk.2.2 j hj (by omega)
      omega
    exact h.opensAt_after_le hopen hw hkj
  · rw [awaited_eq htarget ha]
    exact ⟨rfl, mem_markProofCompleted completed _⟩

/-- The last deadline of a period, which has no sectors. -/
def lastDeadline : DeadlineInfo where
  currentEpoch := 2875
  periodStart := 0
  index := 47
  opensAt := 2820
  closesAt := 2880
  wPoStPeriodDeadlines := 48
  wPoStProvingPeriod := 2880
  wPoStChallengeWindow := 60

/-- Only deadline 1 has sectors. -/
def onlySecond : Nat → Nat := fun i => if i = 1 then 8 else 0

/-- Cells with a cache filled by Lotus. -/
def filledCells : Cells where
  sectorCache := SectorCache.refreshFullSectorCache defaultPolicy ⟨∅, 0⟩ lastDeadline
    fun i => some (onlySecond i)

/-- From the last deadline of a period to the second one of the next. -/
theorem virtualDeadline_reported_wraps :
    ∃ k, lastDeadline.IsNextWithSectors onlySecond k ∧
      (filledCells.sectorCache.lookAhead defaultPolicy lastDeadline fun i => some (onlySecond i)).1 =
        some (lastDeadline.after k) := by
  have hperiod : lastDeadline.OnPeriod := ⟨by decide, rfl⟩
  have haccurate : filledCells.sectorCache.Accurate 48 onlySecond :=
    SectorCache.accurate_refreshFullSectorCache_empty rfl (by decide)
  have hahead : (filledCells.sectorCache.deadlineHasNoSectors (Config.mk defaultPolicy true 0).policy
      lastDeadline fun i => some (onlySecond i)).1 = true := by decide +kernel
  obtain ⟨k, hk, htarget, -⟩ := virtualDeadline_reported hperiod
    rfl haccurate rfl ⟨1, by decide, by decide⟩ hahead
  exact ⟨k, hk, htarget⟩

end DeadlineInfo

end OpenModel.Scheduler
