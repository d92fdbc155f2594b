import OpenModel.Lib.Transition

/-!
# Refinement mappings

A system refines another one when, seen through a map, each of its steps is a step of the
other or changes nothing. What is known of the reachable states of the abstract system then
holds of the images of the reachable states of the concrete one. A component of a larger
system is such an abstraction: the map forgets the rest.

## Main results

- `System.Refines.reach`: reachable states map to reachable states
- `System.Refines.startingAt`: the same for the runs that start in one state
-/

namespace Transition.System

variable {σ τ ℓ κ : Type*}

/-- `M`, whose steps satisfy `ok`, does through `π` what `N` does under `ok'`, or stutters. -/
structure Refines (M : System σ ℓ) (N : System τ κ) (ok : σ → ℓ → Prop) (ok' : τ → κ → Prop)
    (π : σ → τ) : Prop where
  init : ∀ s, M.init s → N.init (π s)
  step : ∀ s l t, ok s l → M.step s l = some t →
    π t = π s ∨ ∃ k, ok' (π s) k ∧ N.step (π s) k = some (π t)

variable {M : System σ ℓ} {N : System τ κ} {ok : σ → ℓ → Prop} {ok' : τ → κ → Prop} {π : σ → τ}
  {s : σ}

theorem Refines.reach (h : M.Refines N ok ok' π) (hr : M.Reach ok s) : N.Reach ok' (π s) := by
  induction hr with
  | init h0 => exact .init (h.init _ h0)
  | step _ hok hs ih =>
    obtain heq | ⟨k, hk, hstep⟩ := h.step _ _ _ hok hs
    · exact heq ▸ ih
    · exact .step ih hk hstep

/-- The runs that start in a state refine those that start in its image. -/
theorem Refines.startingAt (h : M.Refines N ok ok' π) (s : σ) :
    (M.startingAt s).Refines (N.startingAt (π s)) ok ok' π where
  init := by
    rintro t rfl
    rfl
  step := h.step

end Transition.System
