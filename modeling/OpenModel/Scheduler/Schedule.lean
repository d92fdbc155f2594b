import Mathlib.Data.Int.ModEq
import Mathlib.Tactic.Ring
import OpenModel.Scheduler.SectorCache

/-!
# The chain's deadline schedule

The deadlines of a miner follow each other without gaps, proving period after
proving period. `DeadlineInfo.nth info q` is the deadline that is `q` windows
after the start of the current period; `DeadlineInfo.OnSchedule` says that Lotus
reports the current one. The look-ahead of the scheduler is connected to this
picture: on an accurate cache it evaluates the first deadline with sectors, the
current one included.

## Main results

- `OnPeriod.virtualInfo_eq_nth`: the virtual deadline is the real one
- `OnPeriod.find?_scanOrder`: the scan finds the first deadline with a property
- `OnSchedule.isOpen_nth_iff`: only the current deadline is open
- `OnSchedule.lookAhead_eq_nth`, `OnSchedule.lookAhead_eq_none`: what the
  look-ahead evaluates
-/

namespace OpenModel.Scheduler

namespace DeadlineInfo

/-- A deadline of a proving period that its windows fill. -/
structure OnPeriod (info : DeadlineInfo) : Prop where
  index_lt : info.index < info.wPoStPeriodDeadlines
  provingPeriod_eq : info.wPoStProvingPeriod =
    info.wPoStPeriodDeadlines * info.wPoStChallengeWindow

/-- Lotus reports the deadline whose window is open, on a gapless schedule. -/
structure OnSchedule (info : DeadlineInfo) : Prop where
  index_lt : info.index < info.wPoStPeriodDeadlines
  opensAt_eq : info.opensAt = info.periodStart + info.index * info.wPoStChallengeWindow
  closesAt_eq : info.closesAt = info.opensAt + info.wPoStChallengeWindow
  provingPeriod_eq : info.wPoStProvingPeriod =
    info.wPoStPeriodDeadlines * info.wPoStChallengeWindow
  opened : info.opensAt ≤ info.currentEpoch
  not_closed : info.currentEpoch < info.closesAt

/-- The deadline that is `q` windows after the start of the current proving period. -/
def nth (info : DeadlineInfo) (q : Nat) : DeadlineInfo :=
  { info with
    periodStart := info.periodStart +
      (q / info.wPoStPeriodDeadlines : Nat) * info.wPoStProvingPeriod
    index := q % info.wPoStPeriodDeadlines
    opensAt := info.periodStart + q * info.wPoStChallengeWindow
    closesAt := info.periodStart + q * info.wPoStChallengeWindow + info.wPoStChallengeWindow }

/-- The `q`-th deadline is the first one with sectors, from the current one on. -/
def IsFirstWithSectors (info : DeadlineInfo) (sectors : Nat → Nat) (q : Nat) : Prop :=
  info.index ≤ q ∧ 0 < sectors (q % info.wPoStPeriodDeadlines) ∧
    ∀ r, info.index ≤ r → r < q → sectors (r % info.wPoStPeriodDeadlines) = 0

variable {info : DeadlineInfo} {sectors : Nat → Nat} {q : Nat}

namespace OnPeriod

theorem numDeadlines_eq (h : info.OnPeriod) :
    info.numDeadlines = info.wPoStPeriodDeadlines := by
  have hn : info.wPoStPeriodDeadlines ≠ 0 := by have := h.index_lt; omega
  simp [numDeadlines, hn]

/-- **Virtual deadline**: the deadline the look-ahead builds for an index is the
next deadline with that index. -/
theorem virtualInfo_eq_nth (h : info.OnPeriod) (hlo : info.index < q)
    (hhi : q < info.index + info.wPoStPeriodDeadlines) :
    info.virtualInfo (q % info.wPoStPeriodDeadlines) = info.nth q := by
  have hidx := h.index_lt
  have hpp := h.provingPeriod_eq
  by_cases hq : q < info.wPoStPeriodDeadlines
  · have hdiv : q / info.wPoStPeriodDeadlines = 0 := Nat.div_eq_of_lt hq
    have hmod : q % info.wPoStPeriodDeadlines = q := Nat.mod_eq_of_lt hq
    have hn : ¬ q ≤ info.index := by omega
    simp [virtualInfo, nextDeadlineOpenEpoch, nth, hdiv, hmod, hlo, hn]
  · have hdiv : q / info.wPoStPeriodDeadlines = 1 := by
      rw [Nat.div_eq_iff (by omega)]
      omega
    have hmod : q % info.wPoStPeriodDeadlines = q - info.wPoStPeriodDeadlines := by
      rw [Nat.mod_eq_sub_mod (by omega), Nat.mod_eq_of_lt (by omega)]
    have hle : q - info.wPoStPeriodDeadlines ≤ info.index := by omega
    have hn : ¬ info.index < q - info.wPoStPeriodDeadlines := by omega
    have hcast : ((q - info.wPoStPeriodDeadlines : Nat) : Int) =
        q - info.wPoStPeriodDeadlines := by omega
    have hopen : info.periodStart + info.wPoStProvingPeriod +
        ((q - info.wPoStPeriodDeadlines : Nat) : Int) * info.wPoStChallengeWindow =
        info.periodStart + q * info.wPoStChallengeWindow := by
      rw [hpp, hcast]
      ring
    simp [virtualInfo, nextDeadlineOpenEpoch, nth, hdiv, hmod, hle, hn, hopen]

/-- The scan visits the residues of the deadlines that follow the current one. -/
theorem scanOrder_eq (h : info.OnPeriod) :
    info.scanOrder =
      (List.range' (info.index + 1) (info.wPoStPeriodDeadlines - 1)).map
        fun q => q % info.wPoStPeriodDeadlines := by
  have hr : List.range' (info.index + 1) (info.wPoStPeriodDeadlines - 1) =
      (List.range' 1 (info.wPoStPeriodDeadlines - 1)).map (info.index + ·) := by
    rw [List.map_add_range']
  rw [hr, List.map_map, scanOrder, h.numDeadlines_eq]
  rfl

/-- A deadline with sectors occurs within one proving period. -/
theorem isFirstWithSectors_lt (h : info.OnPeriod) (hq : info.IsFirstWithSectors sectors q) :
    q < info.index + info.wPoStPeriodDeadlines := by
  obtain ⟨hle, hpos, hmin⟩ := hq
  by_contra hge
  have hr := hmin (q - info.wPoStPeriodDeadlines) (by omega) (by have := h.index_lt; omega)
  rw [← Nat.mod_eq_sub_mod (by omega)] at hr
  omega

/-- The scan finds the first of the other deadlines with a property. -/
theorem find?_scanOrder (h : info.OnPeriod) {f : Nat → Bool} (hlo : info.index < q)
    (hhi : q < info.index + info.wPoStPeriodDeadlines)
    (hq : f (q % info.wPoStPeriodDeadlines) = true)
    (hmin : ∀ r, info.index < r → r < q → f (r % info.wPoStPeriodDeadlines) = false) :
    info.scanOrder.find? f = some (q % info.wPoStPeriodDeadlines) := by
  have hsome : (List.range' (info.index + 1) (info.wPoStPeriodDeadlines - 1)).find?
      (f ∘ fun q => q % info.wPoStPeriodDeadlines) = some q := by
    rw [List.find?_range'_eq_some]
    refine ⟨hq, ?_, ?_⟩
    · rw [List.mem_range'_1]
      omega
    · intro r hr1 hr2
      simpa using hmin r (by omega) hr2
  rw [h.scanOrder_eq, List.find?_map, hsome]
  rfl

/-- The scan finds nothing where no deadline has the property. -/
theorem find?_scanOrder_eq_none (h : info.OnPeriod) {f : Nat → Bool}
    (hf : ∀ i < info.wPoStPeriodDeadlines, f i = false) : info.scanOrder.find? f = none := by
  have hn : 0 < info.wPoStPeriodDeadlines := by have := h.index_lt; omega
  rw [h.scanOrder_eq, List.find?_eq_none]
  intro i hi
  obtain ⟨r, -, rfl⟩ := List.mem_map.mp hi
  simp [hf _ (Nat.mod_lt r hn)]

end OnPeriod

namespace OnSchedule

theorem onPeriod (h : info.OnSchedule) : info.OnPeriod := ⟨h.index_lt, h.provingPeriod_eq⟩

theorem window_pos (h : info.OnSchedule) : 0 < info.wPoStChallengeWindow := by
  have h1 := h.opened
  have h2 := h.not_closed
  have h3 := h.closesAt_eq
  omega

/-- The current deadline is the one numbered by its index. -/
theorem nth_index (h : info.OnSchedule) : info.nth info.index = info := by
  have hdiv : info.index / info.wPoStPeriodDeadlines = 0 := Nat.div_eq_of_lt h.index_lt
  have hmod : info.index % info.wPoStPeriodDeadlines = info.index := Nat.mod_eq_of_lt h.index_lt
  simp only [nth, hdiv, hmod, Nat.cast_zero, Int.zero_mul, Int.add_zero, ← h.opensAt_eq,
    ← h.closesAt_eq]

/-- Later deadlines open later. -/
theorem opensAt_nth_mono (h : info.OnSchedule) {q r : Nat} (hqr : q ≤ r) :
    (info.nth q).opensAt ≤ (info.nth r).opensAt := by
  have hw := h.window_pos
  have hcast : (q : Int) ≤ r := by exact_mod_cast hqr
  have := Int.mul_le_mul_of_nonneg_right hcast hw.le
  simp only [nth]
  omega

/-- A deadline after the current one has not opened yet. -/
theorem currentEpoch_lt_opensAt_nth (h : info.OnSchedule) (hq : info.index < q) :
    info.currentEpoch < (info.nth q).opensAt := by
  have hnext : (info.nth (info.index + 1)).opensAt = info.closesAt := by
    simp only [nth, h.closesAt_eq, h.opensAt_eq]
    push_cast
    ring
  have hle := h.opensAt_nth_mono (q := info.index + 1) (r := q) (by omega)
  have := h.not_closed
  omega

/-- **Contiguity**: of the deadlines from the current one on, only it is open. -/
theorem isOpen_nth_iff (h : info.OnSchedule) (hq : info.index ≤ q) :
    (info.nth q).isOpen = true ↔ q = info.index := by
  constructor
  · intro ho
    by_contra hne
    have hlt := h.currentEpoch_lt_opensAt_nth (q := q) (by omega)
    have hop := ((info.nth q).isOpen_iff.mp ho).1
    simp only [nth] at hlt hop
    omega
  · rintro rfl
    rw [h.nth_index, isOpen_iff]
    exact ⟨h.opened, h.not_closed⟩

variable {p : YieldPolicy} {c : SectorCache}

/-- On an accurate cache the look-ahead evaluates the first deadline with sectors. -/
theorem lookAhead_eq_nth (h : info.OnSchedule)
    (hc : c.Accurate info.wPoStPeriodDeadlines sectors)
    (hq : info.IsFirstWithSectors sectors q) :
    (c.lookAhead p info fun i => some (sectors i)).1 = some (info.nth q) := by
  have hlt := h.onPeriod.isFirstWithSectors_lt hq
  obtain ⟨hle, hpos, hmin⟩ := hq
  obtain ⟨h1, h2⟩ := hc.deadlineHasNoSectors (p := p) h.index_lt
  have hmodi : info.index % info.wPoStPeriodDeadlines = info.index :=
    Nat.mod_eq_of_lt h.index_lt
  unfold SectorCache.lookAhead
  generalize hd : (c.deadlineHasNoSectors p info fun i => some (sectors i)) = d at h1 h2
  obtain ⟨b, c₁⟩ := d
  dsimp only at h1 h2
  subst h1
  by_cases hqi : q = info.index
  · -- the current deadline has sectors itself
    subst hqi
    rw [hmodi] at hpos
    have hb : (sectors info.index == 0) = false := by simpa using by omega
    simp only [hb]
    rw [h.nth_index]
  · have hzero : sectors info.index = 0 := by
      have := hmin info.index le_rfl (by omega)
      rwa [hmodi] at this
    have hacc := h2.refreshFullSectorCache p info
    have hn : 0 < info.wPoStPeriodDeadlines := by have := h.index_lt; omega
    have hfind : (c₁.refreshFullSectorCache p info fun i => some (sectors i)).findNextSectorDeadline
        info = some (q % info.wPoStPeriodDeadlines) := by
      refine h.onPeriod.find?_scanOrder (by omega) hlt ?_ ?_
      · exact (hacc.hasSectors_iff (Nat.mod_lt _ hn)).mpr hpos
      · intro r hr1 hr2
        have hz := hmin r (by omega) hr2
        have hnot := (hacc.hasSectors_iff (Nat.mod_lt r hn)).not.mpr (by omega)
        simpa using hnot
    simp only [hzero, beq_self_eq_true, hfind, Option.map_some]
    rw [h.onPeriod.virtualInfo_eq_nth (by omega) hlt]

/-- With no sectors anywhere the look-ahead finds nothing to evaluate. -/
theorem lookAhead_eq_none (h : info.OnSchedule)
    (hc : c.Accurate info.wPoStPeriodDeadlines sectors)
    (hz : ∀ i < info.wPoStPeriodDeadlines, sectors i = 0) :
    (c.lookAhead p info fun i => some (sectors i)).1 = none := by
  obtain ⟨h1, h2⟩ := hc.deadlineHasNoSectors (p := p) h.index_lt
  unfold SectorCache.lookAhead
  generalize hd : (c.deadlineHasNoSectors p info fun i => some (sectors i)) = d at h1 h2
  obtain ⟨b, c₁⟩ := d
  dsimp only at h1 h2
  subst h1
  have hacc := h2.refreshFullSectorCache p info
  have hfind : (c₁.refreshFullSectorCache p info fun i => some (sectors i)).findNextSectorDeadline
      info = none := by
    refine h.onPeriod.find?_scanOrder_eq_none fun i hi => ?_
    have := (hacc.hasSectors_iff hi).not.mpr (by rw [hz _ hi]; omega)
    simpa using this
  simp [hz _ h.index_lt, hfind]

end OnSchedule

end DeadlineInfo

end OpenModel.Scheduler
