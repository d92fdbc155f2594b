import Mathlib.Order.Lattice
import Mathlib.Tactic.SplitIfs
import OpenModel.Lib.Transition

/-!
# Hearing of a condition

A poller asks again and again, and a condition comes and goes meanwhile. A question that began
when the condition held and is answered while it still holds tells the poller of it: the
condition was heard, until it is over.

When a question takes `longest` at most, the next one begins `interval` later at most, and all are
answered, a condition that holds for longer than one interval and two questions was heard: the
question that was in flight when it began may not have seen it, the next one has.

## Main results

- `Poller.sane_of_reach`: nothing that is kept lies in the future
- `Poller.heard_of_reach`: the bound
-/

namespace Hearing

open Transition (System)

/-- A poller; `since` is the time at which the question in flight began or the last one ended. -/
structure Poller where
  now : Nat := 0
  /-- a question is in flight -/
  busy : Bool := false
  since : Nat := 0
  /-- since when the condition holds -/
  heldSince : Option Nat := none
  /-- the question in flight began when it held -/
  fresh : Bool := false
  heard : Bool := false

inductive Event
  /-- time passes, and the condition holds then or not -/
  | pass (ms : Nat) (holds : Bool)
  | ask
  /-- the question is answered -/
  | hear
  /-- it is not -/
  | miss

namespace Poller

def pass (p : Poller) (ms : Nat) (holds : Bool) : Poller :=
  { p with
    now := p.now + ms
    heldSince := if holds then some (p.heldSince.getD (p.now + ms)) else none
    fresh := p.fresh && holds
    heard := p.heard && holds }

def step (p : Poller) : Event → Option Poller
  | .pass ms holds => some (p.pass ms holds)
  | .ask =>
    if p.busy then none
    else some { p with busy := true, since := p.now, fresh := p.heldSince.isSome }
  | .hear =>
    if p.busy then
      some { p with busy := false, since := p.now, fresh := false, heard := p.heard || p.fresh }
    else none
  | .miss =>
    if p.busy then some { p with busy := false, since := p.now, fresh := false } else none

def system : System Poller Event where
  init p := p = {}
  step := step

variable {interval longest start held : Nat} {p q x : Poller} {e : Event}

-- ════════════════════════════════════════════════════════════════════════
-- The times that are kept
-- ════════════════════════════════════════════════════════════════════════

structure Sane (p : Poller) : Prop where
  since : p.since ≤ p.now
  held : ∀ held, p.heldSince = some held → held ≤ p.now
  fresh : p.fresh → p.heldSince.isSome

/-- A condition that holds after a while held before, or begins to hold. -/
theorem heldSince_pass {ms : Nat} {holds : Bool} (h : (p.pass ms holds).heldSince = some held) :
    holds ∧ (p.heldSince = some held ∨ p.heldSince = none ∧ held = p.now + ms) := by
  obtain ⟨hholds, h⟩ := Option.ite_none_right_eq_some.mp h
  refine ⟨hholds, ?_⟩
  cases hs : p.heldSince with
  | some first => exact .inl (by simpa [hs] using h)
  | none => exact .inr ⟨rfl, by simpa [hs] using h.symm⟩

theorem Sane.pass (h : p.Sane) (ms : Nat) (holds : Bool) : (p.pass ms holds).Sane := by
  refine ⟨h.since.trans (Nat.le_add_right _ _), fun held hheld => ?_, fun hfresh => ?_⟩
  · obtain ⟨-, hold | ⟨-, rfl⟩⟩ := heldSince_pass hheld
    · exact (h.held held hold).trans (Nat.le_add_right _ _)
    · exact le_rfl
  · obtain ⟨-, rfl⟩ : p.fresh ∧ holds := by simpa [Poller.pass] using hfresh
    rfl

/-- **Step lemma**. -/
theorem Sane.step (h : p.Sane) (hstep : p.step e = some q) : q.Sane := by
  cases e with
  | pass ms holds =>
    cases hstep
    exact h.pass ms holds
  | ask =>
    obtain ⟨-, hstep⟩ := Option.ite_none_left_eq_some.mp hstep
    cases hstep
    exact ⟨le_rfl, h.held, id⟩
  | hear | miss =>
    obtain ⟨-, hstep⟩ := Option.ite_none_right_eq_some.mp hstep
    cases hstep
    exact ⟨le_rfl, h.held, Bool.noConfusion⟩

/-- **Run lemma**. -/
theorem sane_of_reach {ok : Poller → Event → Prop} (h : system.Reach ok p) : p.Sane := by
  refine h.invariant (I := Sane) ?_ fun p e q hp _ hstep => hp.step hstep
  rintro p rfl
  exact ⟨le_rfl, nofun, nofun⟩

-- ════════════════════════════════════════════════════════════════════════
-- Questions at a pace
-- ════════════════════════════════════════════════════════════════════════

/-- How long the poller stays where it is. -/
def stay (interval longest : Nat) (busy : Bool) : Nat := if busy then longest else interval

/-- The question that is in flight, or the time since the last one, has not lasted too long. -/
def InPace (interval longest : Nat) (p : Poller) : Prop :=
  p.now ≤ p.since + stay interval longest p.busy

/-- Questions come at this pace and are answered. -/
def Prompt (interval longest : Nat) (p : Poller) : Event → Prop
  | .pass ms _ => p.now + ms ≤ p.since + stay interval longest p.busy
  | .miss => False
  | _ => True

/-- The latest value of `since`, when the condition holds since `held` and was not heard. -/
def latest (interval longest held : Nat) (busy fresh : Bool) : Nat :=
  if busy then if fresh then held + longest + interval else held else held + longest

theorem le_latest (interval longest held : Nat) (busy fresh : Bool) :
    held ≤ latest interval longest held busy fresh := by
  unfold latest
  split_ifs <;> omega

/-- The poller on the clock, when it is prompt since the time `start`. -/
structure InTime (interval longest start : Nat) (p : Poller) : Prop where
  sane : p.Sane
  inPace : p.InPace interval longest
  started : start ≤ p.now
  unheard : ∀ held, p.heldSince = some held → p.heard = false →
    p.since ≤ latest interval longest (max held start) p.busy p.fresh

/-- From `start` on, a condition that holds counts as one that begins to hold. -/
theorem inTime_start (h : x.Sane) (hpace : x.InPace interval longest) :
    x.InTime interval longest x.now where
  sane := h
  inPace := hpace
  started := le_rfl
  unheard held _ _ := h.since.trans ((le_max_right held _).trans (le_latest _ _ _ _ _))

namespace InTime

/-- A condition that begins finds a question that began before it. -/
theorem pass (h : p.InTime interval longest start) {ms : Nat} {holds : Bool}
    (hok : p.now + ms ≤ p.since + stay interval longest p.busy) :
    (p.pass ms holds).InTime interval longest start := by
  have hsince := h.sane.since
  refine ⟨h.sane.pass ms holds, hok, h.started.trans (Nat.le_add_right _ _),
    fun held hheld hheard => ?_⟩
  obtain ⟨rfl, hold | ⟨hnone, rfl⟩⟩ := heldSince_pass hheld
  · have hunheard : p.heard = false := by simpa [Poller.pass] using hheard
    simpa [Poller.pass] using h.unheard held hold hunheard
  · calc p.since ≤ p.now + ms := by omega
      _ ≤ max (p.now + ms) start := le_max_left _ _
      _ ≤ _ := le_latest _ _ _ _ _

theorem ask (h : p.InTime interval longest start) (hbusy : p.busy = false) :
    ({ p with busy := true, since := p.now, fresh := p.heldSince.isSome } :
      Poller).InTime interval longest start := by
  have hnow := h.inPace
  refine ⟨⟨le_rfl, h.sane.held, id⟩, Nat.le_add_right _ _, h.started, fun held hheld hheard => ?_⟩
  have hsince := h.unheard held hheld hheard
  simp only [InPace, hbusy, latest, stay, Bool.false_eq_true, if_false] at hsince hnow
  simp only [latest, show p.heldSince = some held from hheld, Option.isSome_some, if_true]
  omega

/-- Unless it began before the condition, the question has heard of it. -/
theorem hear (h : p.InTime interval longest start) (hbusy : p.busy = true) :
    ({ p with busy := false, since := p.now, fresh := false, heard := p.heard || p.fresh } :
      Poller).InTime interval longest start := by
  have hnow := h.inPace
  refine ⟨⟨le_rfl, h.sane.held, Bool.noConfusion⟩, Nat.le_add_right _ _, h.started,
    fun held hheld hheard => ?_⟩
  obtain ⟨hunheard, hfresh⟩ := Bool.or_eq_false_iff.mp hheard
  have hsince := h.unheard held hheld hunheard
  simp only [InPace, hbusy, hfresh, latest, stay, Bool.false_eq_true, if_true, if_false]
    at hsince hnow ⊢
  omega

/-- **Step lemma**. -/
theorem step (h : p.InTime interval longest start) (hok : p.Prompt interval longest e)
    (hstep : p.step e = some q) : q.InTime interval longest start := by
  cases e with
  | pass ms holds =>
    cases hstep
    exact h.pass hok
  | ask =>
    obtain ⟨hbusy, hstep⟩ := Option.ite_none_left_eq_some.mp hstep
    cases hstep
    exact h.ask (by simpa using hbusy)
  | hear =>
    obtain ⟨hbusy, hstep⟩ := Option.ite_none_right_eq_some.mp hstep
    cases hstep
    exact h.hear hbusy
  | miss => exact hok.elim

end InTime

/-- **Run lemma**. -/
theorem inTime_of_reach (hx : x.Sane) (hpace : x.InPace interval longest)
    (h : (system.startingAt x).Reach (Prompt interval longest) p) :
    p.InTime interval longest x.now := by
  refine h.invariant (I := InTime interval longest x.now) ?_ fun p e q hp hok hstep =>
    hp.step hok hstep
  rintro p rfl
  exact inTime_start hx hpace

/-- **Heard in time**: from any state on in which questions keep their pace and are answered, a
condition that holds for longer than one interval and two questions was heard. -/
theorem heard_of_reach (hx : x.Sane) (hpace : x.InPace interval longest)
    (h : (system.startingAt x).Reach (Prompt interval longest) p) (hheld : p.heldSince = some held)
    (hlong : max held x.now + interval + 2 * longest < p.now) : p.heard := by
  have htime := inTime_of_reach hx hpace h
  by_contra hheard
  have hsince := htime.unheard held hheld (by simpa using hheard)
  have hnow := htime.inPace
  unfold InPace stay at hnow
  unfold latest at hsince
  split_ifs at hnow hsince <;> omega

end Poller

end Hearing
