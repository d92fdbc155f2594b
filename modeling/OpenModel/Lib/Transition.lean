import Mathlib.Logic.Basic

/-!
# Labelled transition systems with guarded runs

A `Transition.System` has a set of initial states and a partial step function
driven by labels. A label carries every choice that is made from outside: which
party moves next, what a remote call answers, how much time passes.

`Reach ok` is reachability along steps that all satisfy a guard `ok`, a
condition on the state before the step and its label. The unguarded states are
those of `Reach` at the guard that is always true.

## Main results

- `System.Reach.invariant`: a property of the initial states that every guarded
  step preserves holds in every reachable state
- `System.Reach.invariant_of`: the same, with a fact already known of every
  reachable state available in the step
- `System.reach_of_exec`: a concrete run reaches its final state
-/

namespace Transition

/-- Initial states and a partial, label-driven step function. -/
structure System (σ ℓ : Type*) where
  init : σ → Prop
  step : σ → ℓ → Option σ

namespace System

variable {σ ℓ : Type*} (M : System σ ℓ)

/-- Reachability along steps whose state and label satisfy `ok`. -/
inductive Reach (ok : σ → ℓ → Prop) : σ → Prop
  | init {s} : M.init s → Reach ok s
  | step {s l t} : Reach ok s → ok s l → M.step s l = some t → Reach ok t

/-- The guard that every step satisfies. -/
def anyStep : σ → ℓ → Prop := fun _ _ => True

/-- Execute a list of labels in order. -/
def exec (s : σ) : List ℓ → Option σ
  | [] => some s
  | l :: ls => (M.step s l).bind fun t => exec t ls

/-- Every step of the execution from `s` satisfies the guard. -/
def ExecOk (ok : σ → ℓ → Prop) (s : σ) : List ℓ → Prop
  | [] => True
  | l :: ls => ok s l ∧ ∀ t, M.step s l = some t → ExecOk ok t ls

/-- Execute a list of labels in order, each under the guard. -/
def execGuarded (ok : σ → ℓ → Prop) [∀ s l, Decidable (ok s l)] (s : σ) : List ℓ → Option σ
  | [] => some s
  | l :: ls => if ok s l then (M.step s l).bind fun t => execGuarded ok t ls else none

/-- The runs that start in `s`. -/
def startingAt (s : σ) : System σ ℓ := { M with init := (· = s) }

variable {M} {ok ok' : σ → ℓ → Prop} {s t : σ}

/-- **Invariant rule**: what holds initially and survives every guarded step
holds in every reachable state. -/
theorem Reach.invariant {I : σ → Prop} (hinit : ∀ s, M.init s → I s)
    (hstep : ∀ s l t, I s → ok s l → M.step s l = some t → I t)
    (h : M.Reach ok s) : I s := by
  induction h with
  | init h0 => exact hinit _ h0
  | step _ hok hs ih => exact hstep _ _ _ ih hok hs

/-- Invariant rule relative to a property `J` of every reachable state. -/
theorem Reach.invariant_of {I J : σ → Prop} (hJ : ∀ s, M.Reach ok s → J s)
    (hinit : ∀ s, M.init s → I s)
    (hstep : ∀ s l t, J s → I s → ok s l → M.step s l = some t → I t)
    (h : M.Reach ok s) : I s := by
  induction h with
  | init h0 => exact hinit _ h0
  | step hr hok hs ih => exact hstep _ _ _ (hJ _ hr) ih hok hs

/-- Weakening the guard keeps every reachable state. -/
theorem Reach.mono (hle : ∀ s l, ok s l → ok' s l) (h : M.Reach ok s) : M.Reach ok' s := by
  induction h with
  | init h0 => exact .init h0
  | step _ hok hs ih => exact .step ih (hle _ _ hok) hs

/-- A run that goes on from a reachable state. -/
theorem Reach.trans (h : M.Reach ok s) (hle : ∀ s l, ok' s l → ok s l)
    (ht : (M.startingAt s).Reach ok' t) : M.Reach ok t := by
  induction ht with
  | init h0 => exact h0 ▸ h
  | step _ hok hs ih => exact .step ih (hle _ _ hok) hs

/-- Every guarded execution stays within the reachable states. -/
theorem Reach.exec {ls : List ℓ} (h : M.Reach ok s) (hok : M.ExecOk ok s ls)
    (hexec : M.exec s ls = some t) : M.Reach ok t := by
  induction ls generalizing s with
  | nil =>
    cases hexec
    exact h
  | cons l ls ih =>
    obtain ⟨u, hu, hrest⟩ := Option.bind_eq_some_iff.mp hexec
    exact ih (.step h hok.1 hu) (hok.2 u hu) hrest

/-- An execution satisfies a guard that its labels satisfy in every state. -/
theorem execOk_of_forall {ls : List ℓ} (h : ∀ l ∈ ls, ∀ s, ok s l) : M.ExecOk ok s ls := by
  induction ls generalizing s with
  | nil => trivial
  | cons l ls ih =>
    exact ⟨h l List.mem_cons_self s, fun t _ => ih fun l hl => h l (List.mem_cons_of_mem _ hl)⟩

/-- A concrete run from an initial state reaches its final state. -/
theorem reach_of_exec {ls : List ℓ} (h0 : M.init s) (hexec : M.exec s ls = some t) :
    M.Reach anyStep t :=
  (Reach.init h0).exec (execOk_of_forall fun _ _ _ => trivial) hexec

/-- A guarded execution is an execution. Part of the guard can be decided, and the labels of
the run bear out the rest. -/
theorem exec_of_execGuarded {check : σ → ℓ → Prop} [∀ s l, Decidable (check s l)] {ls : List ℓ}
    (hok : ∀ l ∈ ls, ∀ s, check s l → ok s l) (hexec : M.execGuarded check s ls = some t) :
    M.ExecOk ok s ls ∧ M.exec s ls = some t := by
  induction ls generalizing s with
  | nil => exact ⟨trivial, hexec⟩
  | cons l ls ih =>
    simp only [System.execGuarded, Option.ite_none_right_eq_some] at hexec
    obtain ⟨hl, hexec⟩ := hexec
    obtain ⟨u, hu, hrest⟩ := Option.bind_eq_some_iff.mp hexec
    obtain ⟨hls, hrun⟩ := ih (fun l hl => hok l (List.mem_cons_of_mem _ hl)) hrest
    refine ⟨⟨hok l List.mem_cons_self s hl, fun v hv => ?_⟩, ?_⟩
    · obtain rfl := Option.some.inj (hu.symm.trans hv)
      exact hls
    · exact Option.bind_eq_some_iff.mpr ⟨u, hu, hrun⟩

/-- **Guarded runs**: a concrete run whose steps all satisfy the guard reaches its final
state. -/
theorem Reach.execGuarded_of {check : σ → ℓ → Prop} [∀ s l, Decidable (check s l)] {ls : List ℓ}
    (h : M.Reach ok s) (hok : ∀ l ∈ ls, ∀ s, check s l → ok s l)
    (hexec : M.execGuarded check s ls = some t) : M.Reach ok t :=
  let ⟨hguard, hrun⟩ := exec_of_execGuarded hok hexec
  h.exec hguard hrun

/-- Guarded runs, where the whole guard can be decided. -/
theorem Reach.execGuarded [∀ s l, Decidable (ok s l)] {ls : List ℓ} (h : M.Reach ok s)
    (hexec : M.execGuarded ok s ls = some t) : M.Reach ok t :=
  h.execGuarded_of (fun _ _ _ hl => hl) hexec

end System

end Transition
