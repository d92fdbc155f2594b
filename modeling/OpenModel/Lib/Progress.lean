import OpenModel.Lib.Transition

/-!
# Progress of one party

A party of a system moves when it can, the others may move at any time before. `Within` says
how many steps of its own it needs at most, whatever they do.

## Main results

- `System.within_of_measure`: the party can move until a measure that only falls is used up
- `System.not_within_of_stuck`: a party that cannot move gets nowhere
- `System.Within.exists_reach`: what comes about can be reached
-/

namespace Transition.System

variable {σ ℓ : Type*} (M : System σ ℓ) (mine : ℓ → Prop) (others : σ → ℓ → Prop)

/-- `P` comes about after at most `n` of the party's own steps: where it does not hold yet, the
party can move, whatever the others have done, and every move counts. -/
def Within (P : σ → Prop) : Nat → σ → Prop
  | 0, s => P s
  | n + 1, s => P s ∨ ∀ u, (M.startingAt s).Reach others u →
      P u ∨ ((∃ l t, mine l ∧ M.step u l = some t) ∧
        ∀ l t, mine l → M.step u l = some t → Within P n t)

variable {M mine others} {P I : σ → Prop} {μ : σ → Nat} {s : σ} {n m : Nat}

theorem Within.succ (h : M.Within mine others P n s) : M.Within mine others P (n + 1) s := by
  induction n generalizing s with
  | zero => exact .inl h
  | succ n ih =>
    obtain hs | hu := h
    · exact .inl hs
    · refine .inr fun u hreach => (hu u hreach).imp_right fun ⟨henabled, hmoves⟩ => ?_
      exact ⟨henabled, fun l t hl hstep => ih (hmoves l t hl hstep)⟩

theorem Within.mono (h : M.Within mine others P n s) (hle : n ≤ m) :
    M.Within mine others P m s := by
  induction hle with
  | refl => exact h
  | step _ ih => exact ih.succ

/-- **Measure rule**: the others keep an invariant and raise no measure, the party lowers it and
can do so until it is zero. -/
theorem within_of_measure
    (hothers : ∀ s l t, I s → others s l → M.step s l = some t → I t ∧ μ t ≤ μ s)
    (henabled : ∀ s, I s → 0 < μ s → ∃ l t, mine l ∧ M.step s l = some t)
    (hmine : ∀ s l t, I s → 0 < μ s → mine l → M.step s l = some t → I t ∧ μ t < μ s)
    (hdone : ∀ s, I s → μ s = 0 → P s) (hs : I s) (hn : μ s ≤ n) :
    M.Within mine others P n s := by
  induction n generalizing s with
  | zero => exact hdone s hs (Nat.le_zero.mp hn)
  | succ n ih =>
    refine .inr fun u hreach => ?_
    have hu : I u ∧ μ u ≤ μ s := by
      refine hreach.invariant (I := fun u => I u ∧ μ u ≤ μ s) (fun v hv => ?_)
        fun v l t hv hl hstep => ?_
      · rw [show v = s from hv]
        exact ⟨hs, Nat.le_refl _⟩
      · obtain ⟨ht, hle⟩ := hothers v l t hv.1 hl hstep
        exact ⟨ht, Nat.le_trans hle hv.2⟩
    obtain hzero | hpos := Nat.eq_zero_or_pos (μ u)
    · exact .inl (hdone u hu.1 hzero)
    · refine .inr ⟨henabled u hu.1 hpos, fun l t hl hstep => ?_⟩
      obtain ⟨ht, hlt⟩ := hmine u l t hu.1 hpos hl hstep
      exact ih ht (by omega)

/-- What comes about can be reached. -/
theorem Within.exists_reach (h : M.Within mine others P n s) :
    ∃ u, (M.startingAt s).Reach anyStep u ∧ P u := by
  induction n generalizing s with
  | zero => exact ⟨s, .init rfl, h⟩
  | succ n ih =>
    obtain hs | hu := h
    · exact ⟨s, .init rfl, hs⟩
    · obtain hs | ⟨⟨l, t, hl, hstep⟩, hmoves⟩ := hu s (.init rfl)
      · exact ⟨s, .init rfl, hs⟩
      · obtain ⟨u, hreach, hP⟩ := ih (hmoves l t hl hstep)
        have ht : (M.startingAt s).Reach anyStep t := .step (.init rfl) trivial hstep
        exact ⟨u, ht.trans (fun _ _ h => h) hreach, hP⟩

theorem not_within_of_stuck (hs : ¬ P s) (hstuck : ∀ l t, mine l → M.step s l ≠ some t) :
    ¬ M.Within mine others P n s := by
  cases n with
  | zero => exact hs
  | succ n =>
    rintro (h | h)
    · exact hs h
    · obtain h | ⟨⟨l, t, hl, hstep⟩, -⟩ := h s (.init rfl)
      · exact hs h
      · exact hstuck l t hl hstep

end Transition.System
